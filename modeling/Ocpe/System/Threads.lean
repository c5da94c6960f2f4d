import Ocpe.Lib.Pipeline
import Ocpe.System.System
import Ocpe.Worker.Stored

/-!
# Many handlers on one connection

The handlers of an `ApiServer` run on several threads and share its one `RedisClient`.
Nothing keeps `redisvCommand` of one thread apart from that of another: a thread sends its
command in one step and takes the next reply off the connection in a later one.  The
connection is a `Pipeline`; it stays up, and Redis replies in order.

* `InTurn`: a handler that takes a reply waits for the oldest reply that anybody waits for.
* `own_replies_iff`: every call of `exec_command` gets the reply to its own command if and
  only if every reply is taken in turn; then `validate_token` returns what Redis had under
  the token of this very request.
* `inTurn_of_locked`: that is so where a command is only sent while nobody waits.

Nothing in the code sees to it: `taken_by_another`.
-/

namespace Ocpe.System.Threads

open Lib Redis RedisClient AuthService

/-- An `ApiServer` at work, and the Redis that it is connected to. -/
structure Server (cfg : Config) where
  now : Nat := 0
  store : Store := fun _ => none
  requests : Nat → Option (Handling cfg) := fun _ => none
  redis : Pipeline Nat Cmd Reply := {}
  /-- what the calls of `exec_command` have returned -/
  returned : List (Receipt Nat Cmd Reply) := []

inductive Action
  | tick (ms : Nat)
  /-- a command of another client -/
  | other (c : Cmd)
  | request (r : Nat) (request : Request) (env : Surroundings)
  | send (r : Nat)
  | serve
  | receive (r : Nat)

variable {cfg : Config}

def Server.command? (s : Server cfg) (r : Nat) : Option Cmd :=
  match (s.requests r).bind fun h => h.task.op? with
  | some (.command c) => some c
  | _ => none

def step (cfg : Config) (s : Server cfg) : Action → Option (Server cfg)
  | .tick ms => some { s with now := s.now + ms }
  | .other c => some { s with store := (exec s.now s.store c).1 }
  | .request r request env =>
    if (s.requests r).isNone then
      some { s with requests := Function.update s.requests r (some (.begin cfg 0 request env)) }
    else none
  | .send r => (s.command? r).bind fun c => (s.redis.send r c).map fun redis => { s with redis }
  | .serve => s.redis.sent.head?.bind fun call =>
    (s.redis.serve (exec s.now s.store call.command).2).map fun redis =>
      { s with store := (exec s.now s.store call.command).1, redis }
  | .receive r => (s.redis.receive r).map fun (redis, x) =>
    { s with
      redis
      requests := Function.update s.requests r
        ((s.requests r).map fun h => h.feed (.reply x.reply))
      returned := s.returned ++ [x] }

abbrev Reaches (cfg : Config) (as : List Action) (s : Server cfg) : Prop :=
  run (step cfg) {} as = some s

variable {s s' : Server cfg} {as : List Action}

/-- **What a step can do**: nothing to the connection and at most begin a request, or send,
serve or receive. -/
theorem step_cases {a : Action} (h : step cfg s a = some s') :
    ((∀ r, a ≠ .receive r) ∧ s'.redis = s.redis ∧ s'.returned = s.returned ∧
      ∀ r, s'.requests r = s.requests r ∨
        s.requests r = none ∧ ∃ request env, s'.requests r = some (.begin cfg 0 request env)) ∨
    (∃ r c, a = .send r ∧ s.command? r = some c ∧ s.redis.send r c = some s'.redis ∧
      s'.returned = s.returned ∧ s'.requests = s.requests) ∨
    (∃ call, a = .serve ∧ s.redis.sent.head? = some call ∧
      s.redis.serve (exec s.now s.store call.command).2 = some s'.redis ∧
      s'.returned = s.returned ∧ s'.requests = s.requests) ∨
    ∃ r x, a = .receive r ∧ s.redis.receive r = some (s'.redis, x) ∧
      s'.returned = s.returned ++ [x] ∧ s'.requests = Function.update s.requests r
        ((s.requests r).map fun h => h.feed (.reply x.reply)) := by
  cases a with
  | tick ms =>
    cases h
    exact .inl ⟨by simp, rfl, rfl, fun r => .inl rfl⟩
  | other c =>
    cases h
    exact .inl ⟨by simp, rfl, rfl, fun r => .inl rfl⟩
  | request r request env =>
    simp only [step] at h
    split at h
    · next hnone =>
      cases h
      refine .inl ⟨by simp, rfl, rfl, fun r' => ?_⟩
      by_cases hr : r' = r
      · subst hr
        exact .inr ⟨Option.isNone_iff_eq_none.mp hnone, request, env, Function.update_self ..⟩
      · exact .inl (Function.update_of_ne hr ..)
    · cases h
  | send r =>
    obtain ⟨c, hc, h⟩ := Option.bind_eq_some_iff.mp h
    obtain ⟨redis, hsend, rfl⟩ := Option.map_eq_some_iff.mp h
    exact .inr (.inl ⟨r, c, rfl, hc, hsend, rfl, rfl⟩)
  | serve =>
    obtain ⟨call, hcall, h⟩ := Option.bind_eq_some_iff.mp h
    obtain ⟨redis, hserve, rfl⟩ := Option.map_eq_some_iff.mp h
    exact .inr (.inr (.inl ⟨call, rfl, hcall, hserve, rfl, rfl⟩))
  | receive r =>
    obtain ⟨⟨redis, x⟩, hreceive, rfl⟩ := Option.map_eq_some_iff.mp h
    exact .inr (.inr (.inr ⟨r, x, rfl, hreceive, rfl, rfl⟩))

/-! ### Whose reply it is -/

/-- The reply is taken by whoever waits for the oldest one. -/
def InTurn (s : Server cfg) (a : Action) : Prop := ∀ r, a = .receive r → s.redis.Oldest r

/-- **What a step returns** is the callers' own if and only if the step is in turn, and then
what is on the connection is again what the handlers wait for. -/
theorem matched_step {a : Action} (hmatched : s.redis.Matched) (h : step cfg s a = some s') :
    ∃ new, s'.returned = s.returned ++ new ∧ (InTurn s a ↔ ∀ x ∈ new, x.Own) ∧
      (InTurn s a → s'.redis.Matched) := by
  have hquiet : (∀ r, a ≠ .receive r) → s'.returned = s.returned → s'.redis.Matched →
      ∃ new, s'.returned = s.returned ++ new ∧ (InTurn s a ↔ ∀ x ∈ new, x.Own) ∧
        (InTurn s a → s'.redis.Matched) := by
    intro ha hreturned hmatched'
    exact ⟨[], by rw [hreturned, List.append_nil],
      iff_of_true (fun r hr => absurd hr (ha r)) (by simp), fun _ => hmatched'⟩
  rcases step_cases h with ⟨ha, hredis, hreturned, -⟩ | ⟨r, c, rfl, -, hsend, hreturned, -⟩ |
    ⟨call, rfl, -, hserve, hreturned, -⟩ | ⟨r, x, rfl, hreceive, hreturned, -⟩
  · exact hquiet ha hreturned (hredis ▸ hmatched)
  · exact hquiet (by simp) hreturned (hmatched.send hsend)
  · exact hquiet (by simp) hreturned (hmatched.serve hserve)
  · have hown : InTurn s (.receive r) ↔ x.Own := by
      rw [hmatched.own_iff hreceive]
      constructor
      · intro h
        exact h r rfl
      · intro h r' hr'
        cases hr'
        exact h
    refine ⟨[x], hreturned, hown.trans (by simp), fun h => ?_⟩
    exact hmatched.receive hreceive (hown.mp h)

theorem own_of_step {a : Action} (h : step cfg s a = some s') (hall : ∀ x ∈ s'.returned, x.Own) :
    ∀ x ∈ s.returned, x.Own := by
  rcases step_cases h with ⟨-, -, hreturned, -⟩ | ⟨-, -, -, -, -, hreturned, -⟩ |
    ⟨-, -, -, -, hreturned, -⟩ | ⟨-, x, -, -, hreturned, -⟩
  · exact hreturned ▸ hall
  · exact hreturned ▸ hall
  · exact hreturned ▸ hall
  · intro y hy
    exact hall y (by rw [hreturned]; exact List.mem_append_left _ hy)

/-- **Every reply is the caller's own** exactly where every reply is taken in turn: as long as
that is so, what is on the connection is what the handlers wait for. -/
theorem own_iff_inTurn (hrun : Reaches cfg as s) :
    (∀ x ∈ s.returned, x.Own) ↔ AllSteps (step cfg) InTurn {} as := by
  have hnone : ∀ x ∈ ({} : Server cfg).returned, x.Own := by simp
  rw [← and_iff_right (b := AllSteps (step cfg) InTurn {} as) hnone]
  refine run_iff_allSteps (fun s : Server cfg => (∀ x ∈ s.returned, x.Own) → s.redis.Matched)
    (fun s => ∀ x ∈ s.returned, x.Own) hrun (fun _ => Pipeline.matched_empty) ?_ ?_
  · intro m a m' hmatched hstep hall'
    obtain ⟨new, hreturned, hown, hnext⟩ := matched_step (hmatched (own_of_step hstep hall')) hstep
    refine hnext (hown.mpr fun x hx => hall' x ?_)
    rw [hreturned]
    exact List.mem_append_right _ hx
  · intro m a m' hmatched hstep
    constructor
    · intro hall'
      have hall := own_of_step hstep hall'
      obtain ⟨new, hreturned, hown, -⟩ := matched_step (hmatched hall) hstep
      rw [hreturned, List.forall_mem_append] at hall'
      exact ⟨hall, hown.mpr hall'.2⟩
    · rintro ⟨hall, hturn⟩
      obtain ⟨new, hreturned, hown, -⟩ := matched_step (hmatched hall) hstep
      rw [hreturned, List.forall_mem_append]
      exact ⟨hall, hown.mp hturn⟩

/-! ### What the reply says -/

/-- Redis has executed this call in the run, and has replied so. -/
def ServedIn (cfg : Config) (as : List Action) (call : Call Nat Cmd) (reply : Reply) : Prop :=
  ∃ as₁ as₂ m, as = as₁ ++ .serve :: as₂ ∧ Reaches cfg as₁ m ∧ m.redis.sent.head? = some call ∧
    reply = (exec m.now m.store call.command).2

theorem ServedIn.snoc {call : Call Nat Cmd} {reply : Reply} {a : Action}
    (h : ServedIn cfg as call reply) : ServedIn cfg (as ++ [a]) call reply := by
  obtain ⟨as₁, as₂, m, rfl, hm⟩ := h
  exact ⟨as₁, as₂ ++ [a], m, by simp, hm⟩

/-- **Every reply is what Redis replied** to the call that it belongs to. -/
theorem servedIn_of_returned (hrun : Reaches cfg as s) :
    (∀ x ∈ s.redis.replies, ServedIn cfg as x.1 x.2) ∧
      ∀ x ∈ s.returned, ServedIn cfg as x.got x.reply := by
  refine run_invariant_hist (fun as (s : Server cfg) =>
    (∀ x ∈ s.redis.replies, ServedIn cfg as x.1 x.2) ∧
      ∀ x ∈ s.returned, ServedIn cfg as x.got x.reply) hrun
    (fun _ _ => trivial) ⟨by simp, by simp⟩ ?_
  rintro bs m a m' hm ⟨hreplies, hreturned⟩ (_ : True) hstep
  rcases step_cases hstep with ⟨-, hredis, hret, -⟩ | ⟨r, c, -, -, hsend, hret, -⟩ |
    ⟨call, rfl, hcall, hserve, hret, -⟩ | ⟨r, x, -, hreceive, hret, -⟩
  · rw [hredis, hret]
    exact ⟨fun x hx => (hreplies x hx).snoc, fun x hx => (hreturned x hx).snoc⟩
  · rw [(Pipeline.send_eq_some hsend).2, hret]
    exact ⟨fun x hx => (hreplies x hx).snoc, fun x hx => (hreturned x hx).snoc⟩
  · rw [hret]
    refine ⟨fun x hx => ?_, fun x hx => (hreturned x hx).snoc⟩
    obtain ⟨call', sent, hsent, hredis⟩ := Pipeline.serve_eq_some hserve
    obtain rfl : call' = call := by simpa [hsent] using hcall
    rw [hredis] at hx
    rcases List.mem_append.mp hx with hx | hx
    · exact (hreplies x hx).snoc
    · rw [List.mem_singleton.mp hx]
      exact ⟨bs, [], m, rfl, hm, hcall, rfl⟩
  · obtain ⟨-, replies, hcons, hredis⟩ := Pipeline.receive_eq_some hreceive
    rw [hcons] at hreplies
    rw [hredis, hret]
    refine ⟨fun y hy => (hreplies y (List.mem_cons_of_mem _ hy)).snoc, fun y hy => ?_⟩
    rcases List.mem_append.mp hy with hy | hy
    · exact (hreturned y hy).snoc
    · rw [List.mem_singleton.mp hy]
      exact (hreplies _ List.mem_cons_self).snoc

/-- A handler that waits has sent the command that it is at. -/
def Waits (s : Server cfg) : Prop :=
  ∀ r call, s.redis.waiting r = some call → call.caller = r ∧ s.command? r = some call.command

/-- What a handler has been answered, a call of `exec_command` has returned to it. -/
def Answered (s : Server cfg) : Prop :=
  ∀ r h, s.requests r = some h → ∀ op a, (op, a) ∈ h.task.trace →
    ∃ x ∈ s.returned, x.mine.caller = r ∧ op = .command x.mine.command ∧ a = .reply x.reply

theorem command?_eq_some {r : Nat} {c : Cmd} :
    s.command? r = some c ↔ ∃ h, s.requests r = some h ∧ h.task.op? = some (.command c) := by
  unfold Server.command?
  cases s.requests r with
  | none => simp
  | some h =>
    cases hop : h.task.op? with
    | none => simp [hop]
    | some op => cases op <;> simp [hop]

theorem command?_congr {r : Nat} (h : s'.requests r = s.requests r) :
    s'.command? r = s.command? r := by
  unfold Server.command?
  rw [h]

theorem waits_step {a : Action} (hwaits : Waits s) (h : step cfg s a = some s') : Waits s' := by
  intro r call hcall
  rcases step_cases h with ⟨-, hredis, -, hrequests⟩ | ⟨r', c, -, hc, hsend, -, hrequests⟩ |
    ⟨_, -, -, hserve, -, hrequests⟩ | ⟨r', x, -, hreceive, -, hrequests⟩
  · rw [hredis] at hcall
    obtain ⟨hcaller, hcommand⟩ := hwaits r call hcall
    rcases hrequests r with hr | ⟨hnone, -⟩
    · exact ⟨hcaller, (command?_congr hr).trans hcommand⟩
    · obtain ⟨_, hr, -⟩ := command?_eq_some.mp hcommand
      cases hnone.symm.trans hr
  · rw [command?_congr (congrFun hrequests r)]
    rw [Pipeline.waiting_send hsend] at hcall
    by_cases hr : r = r'
    · subst hr
      rw [Function.update_self] at hcall
      cases hcall
      exact ⟨rfl, hc⟩
    · rw [Function.update_of_ne hr] at hcall
      exact hwaits r call hcall
  · rw [command?_congr (congrFun hrequests r)]
    rw [Pipeline.waiting_serve hserve] at hcall
    exact hwaits r call hcall
  · rw [Pipeline.waiting_receive hreceive] at hcall
    by_cases hr : r = r'
    · subst hr
      rw [Function.update_self] at hcall
      cases hcall
    · rw [Function.update_of_ne hr] at hcall
      rw [command?_congr ((congrFun hrequests r).trans (Function.update_of_ne hr ..))]
      exact hwaits r call hcall

theorem answered_step {a : Action} (hwaits : Waits s) (hanswered : Answered s)
    (h : step cfg s a = some s') : Answered s' := by
  intro r handling hr op ans hmem
  rcases step_cases h with ⟨-, -, hreturned, hrequests⟩ | ⟨-, -, -, -, -, hreturned, hrequests⟩ |
    ⟨-, -, -, -, hreturned, hrequests⟩ | ⟨r', x, -, hreceive, hreturned, hrequests⟩
  · rw [hreturned]
    rcases hrequests r with heq | ⟨-, request, env, hnew⟩
    · exact hanswered r handling (heq ▸ hr) op ans hmem
    · cases hnew.symm.trans hr
      cases hmem
  · rw [hrequests] at hr
    rw [hreturned]
    exact hanswered r handling hr op ans hmem
  · rw [hrequests] at hr
    rw [hreturned]
    exact hanswered r handling hr op ans hmem
  · rw [hrequests] at hr
    rw [hreturned]
    have hold : ∀ {old : Handling cfg}, s.requests r = some old → (op, ans) ∈ old.task.trace →
        ∃ y ∈ s.returned ++ [x], y.mine.caller = r ∧ op = .command y.mine.command ∧
          ans = .reply y.reply := by
      intro old hold hmem
      obtain ⟨y, hy, hrest⟩ := hanswered r old hold op ans hmem
      exact ⟨y, List.mem_append_left _ hy, hrest⟩
    by_cases heq : r = r'
    · subst heq
      obtain ⟨hcaller, hcommand⟩ := hwaits r x.mine (Pipeline.receive_eq_some hreceive).1
      obtain ⟨old, hold', hop⟩ := command?_eq_some.mp hcommand
      rw [Function.update_self, hold'] at hr
      cases hr
      change (op, ans) ∈ (old.task.feed (.reply x.reply)).trace at hmem
      rw [Task.feed_trace hop, List.mem_append, List.mem_singleton] at hmem
      rcases hmem with hmem | hmem
      · exact hold hold' hmem
      · cases hmem
        exact ⟨x, by simp, hcaller, rfl, rfl⟩
    · rw [Function.update_of_ne heq] at hr
      exact hold hr hmem

theorem answered (hrun : Reaches cfg as s) : Answered s := by
  refine (run_invariant (fun s : Server cfg => Waits s ∧ Answered s) hrun ⟨?_, ?_⟩ ?_).2
  · intro r call h
    cases h
  · intro r h hr
    cases hr
  · rintro m a m' ⟨hwaits, hanswered⟩ hstep
    exact ⟨waits_step hwaits hstep, answered_step hwaits hanswered hstep⟩

theorem validateToken_path_some {token username : Bytes} {t : List (Wire × Answer)}
    (h : (validateToken token).Path t (.pure (some username))) :
    ∃ reply, (.command (.get (tokenKey token)), .reply reply) ∈ t ∧ username = replyStr reply := by
  unfold validateToken at h
  split at h
  · cases (Prog.path_pure.mp h).2
  · obtain ⟨t₁, t₂, r, rfl, h₁, h₂⟩ := Prog.path_bind_pure_iff.mp h
    split at h₂
    · cases (Prog.path_pure.mp h₂).2
    · cases (Prog.path_pure.mp h₂).2
    · next reply hnil =>
      cases (Prog.path_pure.mp h₂).2
      refine ⟨reply, List.mem_append_left _ ?_, rfl⟩
      rcases execCommand_path_some h₁ with rfl | rfl <;> simp [tokenKey]

/-- **Every call of `exec_command` returns the reply to its own command** if and only if
every reply is taken in turn; and then a name that `validate_token` returns is what Redis
had under this token when it executed this handler's look-up. -/
theorem own_replies_iff (hrun : Reaches cfg as s) :
    ((∀ x ∈ s.returned, x.Own) ↔ AllSteps (step cfg) InTurn {} as) ∧
      (AllSteps (step cfg) InTurn {} as → ∀ r h t₁ t₂ token username, s.requests r = some h →
        h.task.trace = t₁ ++ t₂ → (validateToken token).Path t₁ (.pure (some username)) →
        ∃ call reply, call.caller = r ∧ call.command = .get (tokenKey token) ∧
          ServedIn cfg as call reply ∧ username = replyStr reply) := by
  refine ⟨own_iff_inTurn hrun, ?_⟩
  intro hturn r h t₁ t₂ token username hr htrace hpath
  obtain ⟨reply, hmem, hname⟩ := validateToken_path_some hpath
  obtain ⟨x, hx, hcaller, hop, hreply⟩ := answered hrun r h hr _ _
    (htrace ▸ List.mem_append_left t₂ hmem)
  have hown : x.got = x.mine := (own_iff_inTurn hrun).mpr hturn x hx
  have hserved := (servedIn_of_returned hrun).2 x hx
  refine ⟨x.got, x.reply, ?_, ?_, hserved, ?_⟩
  · rw [hown]
    exact hcaller
  · rw [hown]
    exact (Wire.command.inj hop).symm
  · rw [hname, Answer.reply.inj hreply]

/-! ### A lock is enough -/

/-- A command is sent only while nobody waits for a reply. -/
def Locked (s : Server cfg) (a : Action) : Prop := ∀ r, a = .send r → ∀ i, s.redis.waiting i = none

theorem alone_step {a : Action} (halone : s.redis.Alone) (ha : Locked s a)
    (h : step cfg s a = some s') : s'.redis.Alone := by
  rcases step_cases h with ⟨-, hredis, -⟩ | ⟨r, c, rfl, -, hsend, -⟩ | ⟨_, -, -, hserve, -⟩ |
    ⟨r, x, -, hreceive, -⟩
  · rw [hredis]
    exact halone
  · exact halone.send (ha r rfl) hsend
  · exact halone.serve hserve
  · exact halone.receive hreceive

theorem inTurn_of_locked {as : List Action} (halone : s.redis.Alone)
    (hlocked : AllSteps (step cfg) Locked s as) : AllSteps (step cfg) InTurn s as :=
  hlocked.imp (fun s => s.redis.Alone) halone (fun _ _ halone _ _ _ => halone.oldest)
    fun _ _ _ halone ha hstep => alone_step halone ha hstep

/-! ### Ann and Bob -/

def annToken : HexString 64 := zeros 64

def bobToken : HexString 64 := .replicate 64 49 one_isHex

def asks (token : HexString 64) : Request := .me (some (bytes "Bearer " ++ token.text))

def annAsks : List Action :=
  [.other (.set (tokenKey annToken.text) "ann" none), .request 0 (asks annToken) zeroSurroundings,
    .send 0, .serve, .receive 0]

theorem own_replies_iff_ann :
    ∃ (s : Server textConfig) (call : Call Nat Cmd) (reply : Reply),
      Reaches textConfig annAsks s ∧ (∀ x ∈ s.returned, x.Own) ∧ s.returned ≠ [] ∧
      call.caller = 0 ∧ ServedIn textConfig annAsks call reply ∧ bytes "ann" = replyStr reply := by
  obtain ⟨s, h, hrun, hr, htrace, hreturned⟩ : ∃ (s : Server textConfig) (h : Handling textConfig),
      Reaches textConfig annAsks s ∧ s.requests 0 = some h ∧
      h.task.trace = [(.command (.get (tokenKey annToken.text)), .reply (.str "ann"))] ∧
      s.returned ≠ [] := ⟨_, _, rfl, rfl, rfl, List.cons_ne_nil _ _⟩
  have hturn : AllSteps (step textConfig) InTurn {} annAsks := by
    refine inTurn_of_locked Pipeline.alone_empty ?_
    iterate 2 refine allSteps_cons rfl (fun r hr => nomatch hr) ?_
    refine allSteps_cons rfl (fun r hr i => rfl) ?_
    iterate 2 refine allSteps_cons rfl (fun r hr => nomatch hr) ?_
    trivial
  obtain ⟨call, reply, hcaller, -, hserved, hname⟩ := (own_replies_iff hrun).2 hturn 0 h _ []
    annToken.text "ann" hr (List.append_nil _).symm
    (by rw [htrace]; exact validateToken_path (List.cons_ne_nil _ _))
  exact ⟨s, call, reply, hrun, (own_replies_iff hrun).1.mpr hturn, hreturned, hcaller, hserved, hname⟩

/-- Both send their look-ups, and Bob's handler is the first to take a reply. -/
def crossed : List Action :=
  [.other (.set (tokenKey annToken.text) "ann" none),
    .other (.set (tokenKey bobToken.text) "bob" none), .request 0 (asks annToken) zeroSurroundings,
    .request 1 (asks bobToken) zeroSurroundings, .send 0, .send 1, .serve, .serve, .receive 1,
    .receive 0]

/-- **Ann's handler takes the reply to Bob's look-up**, and she is served as Bob. -/
theorem taken_by_another :
    ∃ (s : Server textConfig) (h : Handling textConfig) (x : Receipt Nat Cmd Reply),
      Reaches textConfig crossed s ∧ s.requests 0 = some h ∧ h.request = asks annToken ∧
      (validateToken annToken.text).Path h.task.trace (.pure (some (bytes "bob"))) ∧
      s.store (tokenKey annToken.text) = some ⟨.str "ann", none⟩ ∧ x ∈ s.returned ∧ ¬x.Own := by
  obtain ⟨s, h, x, y, hrun, hr, hrequest, htrace, hstore, hreturned, hcaller⟩ :
      ∃ (s : Server textConfig) (h : Handling textConfig) (x y : Receipt Nat Cmd Reply),
        Reaches textConfig crossed s ∧ s.requests 0 = some h ∧ h.request = asks annToken ∧
        h.task.trace = [(.command (.get (tokenKey annToken.text)), .reply (.str "bob"))] ∧
        s.store (tokenKey annToken.text) = some ⟨.str "ann", none⟩ ∧ s.returned = [x, y] ∧
        x.got.caller ≠ x.mine.caller := ⟨_, _, _, _, rfl, rfl, rfl, rfl, rfl, rfl, Nat.zero_ne_one⟩
  refine ⟨s, h, x, hrun, hr, hrequest, ?_, hstore, by simp [hreturned], ?_⟩
  · rw [htrace]
    exact validateToken_path (List.cons_ne_nil _ _)
  · intro hown
    exact hcaller (congrArg Call.caller hown)

end Ocpe.System.Threads
