import Ocpe.Lib.Prog
import Ocpe.Shared.JsonUtils
import Ocpe.Shared.Redis

/-!
# The Redis client

`shared/src/redis_client.cpp` as interaction programs.  The operations are what goes
over the wire: a command on the client's connection, or `redisConnectWithTimeout`.

`exchange` is the other side: what an operation does to the store and to the
client's context when the network serves it, refuses it with an error reply, loses
the command (`unsent`) or loses the reply to a command the server has executed
(`unanswered`).  A context that has met an error fails every later command with the
same error, until `connect` replaces it.

`execCommand` connects again and sends the command once more after
`REDIS_ERR_IO`, and only then: `execCommand_issues` is what it can send.
-/

namespace Ocpe

open Lib Redis

/-- `redisContext::err` -/
inductive RedisErr
  | io | eof
  deriving DecidableEq, Repr

/-- `ctx_`: no context, one without error, or one with `err` set. -/
inductive Ctx
  | null | good | broken (e : RedisErr)
  deriving DecidableEq, Repr

inductive Wire
  | command (c : Cmd)
  | connect
  deriving DecidableEq, Repr

inductive Answer
  /-- there is no context to send on -/
  | noContext
  | reply (r : Reply)
  /-- `redisvCommand` returned null, and this is `ctx_->err` -/
  | failed (e : RedisErr)
  | connected (success : Bool)
  deriving DecidableEq, Repr

def Answer.reply? : Answer → Option Reply
  | .reply r => some r
  | _ => none

/-- What becomes of an operation on its way. -/
inductive Net
  | served
  | refused (msg : Bytes)
  | unsent (e : RedisErr)
  | unanswered (e : RedisErr)
  deriving DecidableEq, Repr

/-- The store and the context after an operation, and the answer to it. -/
def exchange (now : Nat) (store : Store) : Ctx → Wire → Net → Store × Ctx × Answer
  | _, .connect, .served => (store, .good, .connected true)
  | _, .connect, _ => (store, .null, .connected false)
  | .null, .command _, _ => (store, .null, .noContext)
  | .broken e, .command _, _ => (store, .broken e, .failed e)
  | .good, .command c, .served => ((exec now store c).1, .good, .reply (exec now store c).2)
  | .good, .command _, .refused msg => (store, .good, .reply (.error msg))
  | .good, .command _, .unsent e => (store, .broken e, .failed e)
  | .good, .command c, .unanswered e => ((exec now store c).1, .broken e, .failed e)

def Wire.writes : Wire → Option Bytes
  | .command c => c.writes
  | .connect => none

theorem exchange_frame {now : Nat} {store : Store} {ctx : Ctx} {op : Wire} {net : Net} {k : Bytes}
    (h : op.writes ≠ some k) : (exchange now store ctx op net).1 k = store k := by
  cases op with
  | connect => cases net <;> rfl
  | command c =>
    cases ctx with
    | null => rfl
    | broken e => rfl
    | good =>
      cases net with
      | served => exact exec_frame h
      | unanswered e => exact exec_frame h
      | refused msg => rfl
      | unsent e => rfl

abbrev Talk (α : Type) := Prog Wire Answer Exn α

def Talk.json {α : Type} (x : Except JsonError α) : Talk α := .ofExcept (x.mapError Exn.json)

namespace RedisClient

open Prog

def queueKey : Bytes := "ocpe:submission_queue"
def resultPrefix : Bytes := "ocpe:result:"
def statusPrefix : Bytes := "ocpe:status:"

/-- The keys as `%s` sends them. -/
def resultKey (submissionId : Bytes) : Bytes := cstr (resultPrefix ++ submissionId)
def statusKey (submissionId : Bytes) : Bytes := cstr (statusPrefix ++ submissionId)

/-- `connect`, and `reconnect`, which is the same. -/
def connect : Talk Bool := do
  match ← perform .connect with
  | .connected success => return success
  | _ => return false

/-- What `exec_command` makes of the answer to its command: only after `REDIS_ERR_IO`
it connects again and sends the command a second time. -/
def afterCommand (c : Cmd) : Answer → Talk (Option Reply)
  | .reply r => return some r
  | .failed .io => do
    if ← connect then
      match ← perform (.command c) with
      | .reply r => return some r
      | _ => return none
    else return none
  | _ => return none

/-- The reply, or `none` for a null pointer. -/
def execCommand (c : Cmd) : Talk (Option Reply) := do
  afterCommand c (← perform (.command c))

/-- `reply->type != REDIS_REPLY_ERROR` -/
def notError : Reply → Bool
  | .error _ => false
  | _ => true

/-- A command of which only the success matters. -/
def succeeds (c : Cmd) : Talk Bool := do
  match ← execCommand c with
  | none => return false
  | some reply => return notError reply

/-- `std::string(reply->str, reply->len)` -/
def replyStr : Reply → Bytes
  | .str b => b
  | .status b => b
  | .error msg => msg
  | _ => []

variable (F : JsonFormat)

def enqueueJob (job : SubmissionJob) : Talk Bool := do
  let payload ← Talk.json (submissionJobToJson F job)
  succeeds (.lpush queueKey payload)

def dequeueJob (timeoutSec : Nat) : Talk (Option SubmissionJob) := do
  match ← execCommand (.brpop queueKey timeoutSec) with
  | some (.arr (_ :: payload :: _)) => return some (← Talk.json (submissionJobFromJson F payload))
  | _ => return none

def setStatus (submissionId : Bytes) (status : Verdict) : Talk Bool :=
  succeeds (.set (statusKey submissionId) (cstr (verdictToString status)) (some 86400))

def getStatus (submissionId : Bytes) : Talk (Option Verdict) := do
  match ← execCommand (.get (statusKey submissionId)) with
  | none => return none
  | some .nil => return none
  | some reply => return some (verdictFromString (replyStr reply))

def setResult (result : SubmissionResult) : Talk Bool := do
  let payload ← Talk.json (submissionResultToJson F result)
  succeeds (.set (resultKey result.submissionId) payload (some 86400))

def getResult (submissionId : Bytes) : Talk (Option SubmissionResult) := do
  match ← execCommand (.get (resultKey submissionId)) with
  | none => return none
  | some .nil => return none
  | some reply => return some (← Talk.json (submissionResultFromJson F (replyStr reply)))

def queueLength : Talk Int := do
  match ← execCommand (.llen queueKey) with
  | some (.int n) => return n
  | _ => return -1

def rawGet (key : Bytes) : Talk (Option Reply) := execCommand (.get (cstr key))

def rawSet (key value : Bytes) : Talk Bool := succeeds (.set (cstr key) value none)

def rawSetEx (key value : Bytes) (ttlSec : Nat) : Talk Bool :=
  succeeds (.set (cstr key) value (some ttlSec))

def rawLpush (key value : Bytes) : Talk (Option Reply) := execCommand (.lpush (cstr key) value)

def rawLtrim (key : Bytes) (start stop : Int) : Talk Bool :=
  succeeds (.ltrim (cstr key) start stop)

def rawLrange (key : Bytes) (start stop : Int) : Talk (Option Reply) :=
  execCommand (.lrange (cstr key) start stop)

/-! ### What the client sends -/

section Issues

variable {G : Wire → Prop}

theorem json_issues {α : Type} (x : Except JsonError α) : (Talk.json x).Issues G :=
  issues_ofExcept _

theorem connect_issues (h : G .connect) : (connect : Talk Bool).Issues G :=
  ⟨h, fun a => by cases a <;> trivial⟩

theorem execCommand_issues {c : Cmd} (hc : G (.command c)) (hconnect : G .connect) :
    (execCommand c : Talk (Option Reply)).Issues G := by
  refine ⟨hc, fun a => ?_⟩
  show (afterCommand c a).Issues G
  cases a with
  | reply r => trivial
  | noContext => trivial
  | connected b => trivial
  | failed e =>
    cases e with
    | eof => trivial
    | io =>
      refine issues_bind (connect_issues hconnect) fun up => ?_
      cases up with
      | false => trivial
      | true => exact ⟨hc, fun a => by cases a <;> trivial⟩

theorem succeeds_issues {c : Cmd} (hc : G (.command c)) (hconnect : G .connect) :
    (succeeds c : Talk Bool).Issues G :=
  issues_bind (execCommand_issues hc hconnect) fun r => by cases r <;> trivial

end Issues

theorem execCommand_returns (c : Cmd) : (execCommand c).Returns fun _ => True := by
  intro a
  show (afterCommand c a).Returns _
  cases a with
  | failed e =>
    cases e with
    | eof => trivial
    | io =>
      refine @returns_bind _ _ _ _ _ (fun _ => True) _ _ _ (fun a => ?_) fun up _ => ?_
      · cases a <;> trivial
      · cases up with
        | false => trivial
        | true => exact fun a => by cases a <;> trivial
  | _ => trivial

@[simp] theorem afterCommand_reply (c : Cmd) (r : Reply) :
    (afterCommand c (.reply r) : Talk (Option Reply)) = .pure (some r) := rfl

theorem path_json_bind {α β : Type} {x : Except JsonError α} {f : α → Talk β}
    {t : List (Wire × Answer)} {q : Talk β} (h : (Talk.json x >>= f).Path t q)
    (hq : ∀ e, q ≠ .throw e) : ∃ a, x = .ok a ∧ (f a).Path t q := by
  cases x with
  | error e => exact absurd (path_throw.mp h).2 (hq _)
  | ok a => exact ⟨a, rfl, h⟩

theorem execCommand_bind {β : Type} (c : Cmd) (f : Option Reply → Talk β) :
    execCommand c >>= f = .op (.command c) fun a => afterCommand c a >>= f := rfl

theorem succeeds_returns (c : Cmd) : (succeeds c).Returns fun _ => True :=
  returns_bind (execCommand_returns c) fun r _ => by cases r <;> trivial

theorem succeeds_bind {β : Type} (c : Cmd) (f : Bool → Talk β) :
    succeeds c >>= f = .op (.command c) fun a => afterCommand c a >>= fun r =>
      f (r.any notError) := by
  rw [succeeds, Prog.bind_assoc, execCommand_bind]
  congr! with a r
  cases r <;> rfl

/-! ### How a command can have gone -/

section Reply

variable {β : Type} {c : Cmd} {r : Reply} {t : List (Wire × Answer)} {q : Talk β}

/-- A command that is replied to. -/
@[simp] theorem path_execCommand_reply {f : Option Reply → Talk β} :
    (execCommand c >>= f).Path ((.command c, .reply r) :: t) q ↔ (f (some r)).Path t q := by
  rw [execCommand_bind, path_op_cons, afterCommand_reply]
  simp

@[simp] theorem path_succeeds_reply {f : Bool → Talk β} :
    (succeeds c >>= f).Path ((.command c, .reply r) :: t) q ↔ (f (notError r)).Path t q := by
  rw [succeeds_bind, path_op_cons, afterCommand_reply]
  simp

/-- Every command of the trace was replied to. -/
def Replied (t : List (Wire × Answer)) : Prop :=
  ∀ x ∈ t, ∀ c, x.1 = .command c → ∃ r, x.2 = .reply r

theorem Replied.tail {x : Wire × Answer} (h : Replied (x :: t)) : Replied t := fun y hy =>
  h y (List.mem_cons_of_mem x hy)

theorem Replied.right {u : List (Wire × Answer)} (h : Replied (u ++ t)) : Replied t := fun y hy =>
  h y (List.mem_append_right u hy)

/-- Where every command is replied to, a command is done with one operation. -/
theorem path_execCommand_replied {f : Option Reply → Talk β} (h : (execCommand c >>= f).Path t q)
    (ht : Replied t) :
    (t = [] ∧ q = execCommand c >>= f) ∨
      ∃ r t', t = (.command c, .reply r) :: t' ∧ (f (some r)).Path t' q ∧ Replied t' := by
  cases t with
  | nil => exact .inl ⟨rfl, (path_nil.mp h).symm⟩
  | cons x t =>
    obtain ⟨op, a⟩ := x
    obtain rfl : Wire.command c = op := h.1
    obtain ⟨r, rfl⟩ : ∃ r, a = .reply r := ht _ List.mem_cons_self c rfl
    exact .inr ⟨r, t, rfl, path_execCommand_reply.mp h, ht.tail⟩

theorem path_succeeds_replied {f : Bool → Talk β} (h : (succeeds c >>= f).Path t q)
    (ht : Replied t) :
    (t = [] ∧ q = succeeds c >>= f) ∨
      ∃ r t', t = (.command c, .reply r) :: t' ∧ (f (notError r)).Path t' q ∧ Replied t' := by
  have hbind : succeeds c >>= f = execCommand c >>= fun r => f (r.any notError) :=
    succeeds_bind c f
  rw [hbind] at h ⊢
  exact path_execCommand_replied h ht

end Reply

/-- **How a command can have gone**: it was answered; or it met `REDIS_ERR_IO`, and
there was no new connection; or there was, and it was answered on that. -/
theorem execCommand_path_pure {c : Cmd} {t : List (Wire × Answer)} {x : Option Reply}
    (h : (execCommand c).Path t (.pure x)) :
    (∃ a, a ≠ .failed .io ∧ t = [(.command c, a)] ∧ x = a.reply?) ∨
      (∃ b, b ≠ .connected true ∧ t = [(.command c, .failed .io), (.connect, b)] ∧ x = none) ∨
      ∃ a, t = [(.command c, .failed .io), (.connect, .connected true), (.command c, a)] ∧
        x = a.reply? := by
  cases t with
  | nil => cases path_nil.mp h
  | cons y t =>
    obtain ⟨op, a⟩ := y
    obtain ⟨rfl, h⟩ := h
    change (afterCommand c a).Path t (.pure x) at h
    by_cases ha : a = .failed .io
    · subst ha
      cases t with
      | nil => cases path_nil.mp h
      | cons y t =>
        obtain ⟨op, b⟩ := y
        obtain ⟨rfl, h⟩ := h
        by_cases hb : b = .connected true
        · subst hb
          cases t with
          | nil => cases path_nil.mp h
          | cons y t =>
            obtain ⟨op, a⟩ := y
            obtain ⟨rfl, h⟩ := h
            refine .inr (.inr ⟨a, ?_⟩)
            cases a <;> obtain ⟨rfl, heq⟩ := path_pure.mp h <;> cases heq <;> exact ⟨rfl, rfl⟩
        · have hnone : t = [] ∧ x = none := by
            cases b with
            | connected up =>
              cases up with
              | true => exact absurd rfl hb
              | false =>
                obtain ⟨rfl, heq⟩ := path_pure.mp h
                cases heq
                exact ⟨rfl, rfl⟩
            | _ =>
              obtain ⟨rfl, heq⟩ := path_pure.mp h
              cases heq
              exact ⟨rfl, rfl⟩
          obtain ⟨rfl, rfl⟩ := hnone
          exact .inr (.inl ⟨b, hb, rfl, rfl⟩)
    · have hdone : t = [] ∧ x = a.reply? := by
        cases a with
        | failed e =>
          cases e with
          | io => exact absurd rfl ha
          | eof =>
            obtain ⟨rfl, heq⟩ := path_pure.mp h
            cases heq
            exact ⟨rfl, rfl⟩
        | _ =>
          obtain ⟨rfl, heq⟩ := path_pure.mp h
          cases heq
          exact ⟨rfl, rfl⟩
      obtain ⟨rfl, rfl⟩ := hdone
      exact .inl ⟨a, ha, rfl, rfl⟩

theorem reply?_eq_some {a : Answer} {r : Reply} (h : a.reply? = some r) : a = .reply r := by
  cases a <;> cases h
  rfl

/-- **A reply came at the first or at the second attempt**, and the second is made
after `REDIS_ERR_IO` only. -/
theorem execCommand_path_some {c : Cmd} {t : List (Wire × Answer)} {r : Reply}
    (h : (execCommand c).Path t (.pure (some r))) :
    t = [(.command c, .reply r)] ∨
      t = [(.command c, .failed .io), (.connect, .connected true), (.command c, .reply r)] := by
  rcases execCommand_path_pure h with ⟨a, -, rfl, hr⟩ | ⟨b, -, -, hr⟩ | ⟨a, rfl, hr⟩
  · rw [reply?_eq_some hr.symm]
    exact .inl rfl
  · cases hr
  · rw [reply?_eq_some hr.symm]
    exact .inr rfl

/-- **A reply that comes is returned.** -/
theorem execCommand_path_of_reply {c : Cmd} {t : List (Wire × Answer)} {x : Option Reply}
    (h : (execCommand c).Path t (.pure x)) {r : Reply} (hr : (.command c, .reply r) ∈ t) :
    x = some r := by
  rcases execCommand_path_pure h with ⟨a, -, rfl, rfl⟩ | ⟨b, -, rfl, -⟩ | ⟨a, rfl, rfl⟩
  · simp only [List.mem_singleton, Prod.mk.injEq, true_and] at hr
    rw [← hr]
    rfl
  · simp at hr
  · simp only [List.mem_cons, Prod.mk.injEq, reduceCtorEq, and_false, List.not_mem_nil, or_false,
      false_or, true_and] at hr
    rw [← hr]
    rfl

theorem succeeds_path_pure {c : Cmd} {t : List (Wire × Answer)} {ok : Bool}
    (h : (succeeds c).Path t (.pure ok)) : ∃ a t', t = (.command c, a) :: t' := by
  cases t with
  | nil => cases path_nil.mp h
  | cons x t =>
    obtain ⟨op, a⟩ := x
    obtain ⟨rfl, -⟩ := h
    exact ⟨a, t, rfl⟩

/-- **A command succeeds** exactly when a reply comes that is no error. -/
theorem succeeds_path_iff {c : Cmd} {t : List (Wire × Answer)} {ok : Bool}
    (h : (succeeds c).Path t (.pure ok)) :
    ok = true ↔ ∃ r, notError r = true ∧ (.command c, .reply r) ∈ t := by
  obtain ⟨t₁, t₂, x, rfl, h₁, h₂⟩ := path_bind_pure_iff.mp h
  cases x with
  | none =>
    obtain ⟨rfl, heq⟩ := path_pure.mp h₂
    cases heq
    refine iff_of_false (fun h => nomatch h) ?_
    rintro ⟨r, -, hr⟩
    rw [List.append_nil] at hr
    cases execCommand_path_of_reply h₁ hr
  | some r =>
    obtain ⟨rfl, heq⟩ := path_pure.mp h₂
    cases heq
    rw [List.append_nil]
    constructor
    · intro hok
      refine ⟨r, hok, ?_⟩
      rcases execCommand_path_some h₁ with rfl | rfl <;> simp
    · rintro ⟨r', hok, hr⟩
      cases execCommand_path_of_reply h₁ hr
      exact hok

theorem succeeds_path_true {c : Cmd} {t : List (Wire × Answer)}
    (h : (succeeds c).Path t (.pure true)) :
    ∃ r, notError r = true ∧ (execCommand c).Path t (.pure (some r)) := by
  obtain ⟨t₁, t₂, r, rfl, h₁, h₂⟩ := path_bind_pure_iff.mp h
  cases r with
  | none => cases (path_pure.mp h₂).2
  | some r =>
    obtain ⟨rfl, heq⟩ := path_pure.mp h₂
    refine ⟨r, ?_, by simpa using h₁⟩
    exact (Prog.pure.inj heq).symm

end RedisClient

end Ocpe
