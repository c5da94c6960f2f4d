import Ocpe.Shared.Direct
import Ocpe.System.Session

/-!
# What an outage leaves behind

A client's context is what its last answer has made of it (`ctx_of_answers`), and
`exec_command` gets a reply from a server that is up exactly when the context is good
or has met `REDIS_ERR_IO` (`replies_iff`).

`command_replied_iff` says it in terms of the client's history: since it last
connected, no connection was closed by the server and no reconnect has failed.  A
worker for which one of the two has happened never gets a reply again
(`cut_for_ever`).
-/

namespace Ocpe.System

open Lib Redis RedisClient

variable {cfg : Config} {s s' : Sys cfg}

/-! ### A server that is up -/

/-- `exec_command` returns a reply, the server being up. -/
def Replies (now : Nat) (store : Store) (ctx : Ctx) (c : Cmd) : Prop :=
  ∃ r, (Prog.interp (upServe now) (store, ctx) (execCommand c)).2 = .ok (some r)

theorem replies_iff {now : Nat} {store : Store} {ctx : Ctx} {c : Cmd} :
    Replies now store ctx c ↔ ctx = .good ∨ ctx = .broken .io := by
  constructor
  · rintro ⟨r, hr⟩
    cases ctx with
    | null => cases hr
    | good => exact .inl rfl
    | broken e =>
      cases e with
      | io => exact .inr rfl
      | eof => cases hr
  · rintro (rfl | rfl)
    · exact ⟨_, rfl⟩
    · exact ⟨_, rfl⟩

/-! ### The answers of a client -/

def Sys.answers (s : Sys cfg) (k : Client) : List Answer :=
  s.log.filterMap fun e =>
    match e with
    | .wire who _ _ _ answer => if s.client who = k then some answer else none
    | _ => none

/-- The client has connected once; that of an API process has before it serves. -/
def Sys.HasConnected (s : Sys cfg) : Client → Prop
  | .api _ => True
  | .worker w => .connected true ∈ s.answers (.worker w)

/-- The server has closed the connection or a reconnect has failed, and the client has
not connected since. -/
def Cut (l : List Answer) : Prop :=
  ∃ pre a post, l = pre ++ a :: post ∧ (a = .failed .eof ∨ a = .connected false) ∧
    .connected true ∉ post

theorem not_cut_nil : ¬ Cut [] := by
  rintro ⟨pre, a, post, h, -, -⟩
  simp at h

theorem cut_concat {l : List Answer} {a : Answer} :
    Cut (l ++ [a]) ↔ (a = .failed .eof ∨ a = .connected false) ∨ (a ≠ .connected true ∧ Cut l) := by
  constructor
  · rintro ⟨pre, b, post, h, hb, hpost⟩
    rcases List.eq_nil_or_concat post with rfl | ⟨post, c, rfl⟩
    · obtain ⟨-, h⟩ := List.append_inj' h rfl
      cases h
      exact .inl hb
    · rw [List.concat_eq_append, ← List.cons_append, ← List.append_assoc] at h
      obtain ⟨rfl, hc⟩ := List.append_inj' h rfl
      obtain rfl := List.singleton_inj.mp hc
      simp only [List.concat_eq_append, List.mem_append, List.mem_singleton, not_or] at hpost
      exact .inr ⟨fun hc => hpost.2 hc.symm, pre, b, post, rfl, hb, hpost.1⟩
  · rintro (ha | ⟨ha, pre, b, post, rfl, hb, hpost⟩)
    · exact ⟨l, a, [], rfl, ha, by simp⟩
    · refine ⟨pre, b, post ++ [a], by simp, hb, ?_⟩
      simp only [List.mem_append, List.mem_singleton, not_or]
      exact ⟨hpost, fun h => ha h.symm⟩

/-- The context that an answer leaves. -/
def ctxAfter : Answer → Ctx
  | .noContext => .null
  | .reply _ => .good
  | .failed e => .broken e
  | .connected true => .good
  | .connected false => .null

theorem exchange_ctx (now : Nat) (store : Store) (ctx : Ctx) (op : Wire) (net : Net) :
    (exchange now store ctx op net).2.1 = ctxAfter (exchange now store ctx op net).2.2 := by
  cases op with
  | connect => cases net <;> rfl
  | command c =>
    cases ctx with
    | null => rfl
    | broken e => rfl
    | good => cases net <;> rfl

/-! ### One step -/

theorem client_perform (who who' : Party) (op : Wire) (net : Net) :
    (s.perform who op net).client who' = s.client who' := by
  cases who' with
  | worker w => rfl
  | handler r' =>
    simp only [Sys.client, perform_requests]
    cases who with
    | worker w => rfl
    | handler r =>
      by_cases hr : r' = r
      · subst hr
        simp only [Sys.feed, Function.update_self, Option.map_map]
        rfl
      · simp only [Sys.feed, Function.update_of_ne hr]

theorem answers_perform (who : Party) (op : Wire) (net : Net) (k : Client) :
    (s.perform who op net).answers k =
      s.answers k ++ if s.client who = k then [s.answer who op net] else [] := by
  simp only [Sys.answers, perform_log, List.filterMap_append, client_perform]
  congr 1
  simp only [Sys.event, List.filterMap_cons, List.filterMap_nil]
  by_cases hk : s.client who = k <;> simp [hk]

theorem Quiet.client {as : List Action} (h : Quiet s s') (hrun : Reaches cfg as s) {who : Party}
    {now : Nat} {op : Wire} {executed : Option Reply} {answer : Answer}
    (he : .wire who now op executed answer ∈ s.log) : s'.client who = s.client who := by
  cases who with
  | worker w => rfl
  | handler r' =>
    obtain ⟨h', hr', -⟩ := sends_of_mem hrun he
    rcases h.requests with heq | ⟨r, api, request, env, hnone, heq⟩
    · simp only [Sys.client, heq]
    · have hne : r' ≠ r := by
        rintro rfl
        rw [hr'] at hnone
        cases hnone
      simp only [Sys.client, heq, Function.update_of_ne hne]

theorem Quiet.answers {as : List Action} (h : Quiet s s') (hrun : Reaches cfg as s) (k : Client) :
    s'.answers k = s.answers k := by
  have hold : s.log.filterMap (fun e =>
      match e with
      | .wire who _ _ _ answer => if s'.client who = k then some answer else none
      | _ => none) = s.answers k := by
    apply List.filterMap_congr
    intro e he
    cases e with
    | wire who now op executed answer => simp only [h.client hrun he]
    | _ => rfl
  rcases h.log with heq | ⟨e, heq, hcloses⟩
  · rw [Sys.answers, heq]
    exact hold
  · rw [Sys.answers, heq, List.filterMap_append, hold]
    cases e with
    | wire => exact hcloses.elim
    | _ => simp

theorem ctx_of_quiet {a : Action} (h : step cfg s a = some s')
    (ha : ∀ who net, a ≠ .perform who net) : s'.ctx = s.ctx := by
  cases a with
  | perform who net => exact absurd rfl (ha who net)
  | tick ms => cases h; rfl
  | stop => cases h; rfl
  | crash w => cases h; rfl
  | request r api request env =>
    simp only [step] at h
    split at h
    · cases h; rfl
    · cases h
  | test w m =>
    obtain ⟨worker, -, rfl⟩ := Option.map_eq_some_iff.mp h
    rfl
  | next w =>
    simp only [step] at h
    split at h
    · cases h; rfl
    · cases h
  | terminate w =>
    simp only [step] at h
    split at h
    · cases h; rfl
    · cases h

/-- **A step of a client's history**: nothing, or one operation of the client. -/
theorem answers_step {as : List Action} (hrun : Reaches cfg as s) {a : Action}
    (h : step cfg s a = some s') (k : Client) :
    (s'.answers k = s.answers k ∧ s'.ctx k = s.ctx k) ∨
      ∃ who net op, a = .perform who net ∧ s.client who = k ∧ s.op? who = some op ∧
        s'.answers k = s.answers k ++ [s.answer who op net] ∧
        s'.ctx k = ctxAfter (s.answer who op net) := by
  rcases step_cases h with ⟨who, net, op, rfl, hop, rfl⟩ | hquiet
  · have hanswers := answers_perform (s := s) who op net k
    have hctx : (s.perform who op net).ctx =
        Function.update s.ctx (s.client who) (ctxAfter (s.answer who op net)) := by
      rw [Sys.answer, ← exchange_ctx]
      rfl
    by_cases hk : s.client who = k
    · rw [if_pos hk] at hanswers
      refine .inr ⟨who, net, op, rfl, hk, hop, hanswers, ?_⟩
      rw [hctx, hk, Function.update_self]
    · rw [if_neg hk, List.append_nil] at hanswers
      refine .inl ⟨hanswers, ?_⟩
      rw [hctx, Function.update_of_ne (Ne.symm hk)]
  · by_cases ha : ∃ who net, a = .perform who net
    · obtain ⟨who, net, rfl⟩ := ha
      obtain ⟨op, hop, rfl⟩ := step_perform_iff.mp h
      exact absurd hquiet.log (by simp [Event.Closes, Sys.event])
    · exact .inl ⟨hquiet.answers hrun k, congrFun (ctx_of_quiet h fun who net he =>
        ha ⟨who, net, he⟩) k⟩

/-! ### What the history says -/

theorem exchange_cases (now : Nat) (store : Store) (ctx : Ctx) (op : Wire) (net : Net) :
    (∃ up, (exchange now store ctx op net).2.2 = .connected up) ∨
      (ctx = .null ∧ (exchange now store ctx op net).2.2 = .noContext) ∨
      (∃ e, ctx = .broken e ∧ (exchange now store ctx op net).2.2 = .failed e) ∨
      (ctx = .good ∧ ((∃ r, (exchange now store ctx op net).2.2 = .reply r) ∨
        ∃ e, (exchange now store ctx op net).2.2 = .failed e)) := by
  cases op with
  | connect => cases net <;> exact .inl ⟨_, rfl⟩
  | command c =>
    cases ctx with
    | null => exact .inr (.inl ⟨rfl, rfl⟩)
    | broken e => exact .inr (.inr (.inl ⟨e, rfl, rfl⟩))
    | good =>
      refine .inr (.inr (.inr ⟨rfl, ?_⟩))
      cases net with
      | served => exact .inl ⟨_, rfl⟩
      | refused msg => exact .inl ⟨_, rfl⟩
      | unsent e => exact .inr ⟨e, rfl⟩
      | unanswered e => exact .inr ⟨e, rfl⟩

/-- The context of a client that has connected: usable unless it is cut. -/
def Usable (s : Sys cfg) (k : Client) : Prop :=
  s.HasConnected k → ((s.ctx k = .good ∨ s.ctx k = .broken .io) ↔ ¬ Cut (s.answers k))

theorem usable_step {as : List Action} (hrun : Reaches cfg as s) {a : Action}
    (h : step cfg s a = some s') {k : Client} (hs : Usable s k) : Usable s' k := by
  intro hconnected
  rcases answers_step hrun h k with ⟨hanswers, hctx⟩ | ⟨who, net, op, rfl, hk, -, hanswers, hctx⟩
  · have hconnected' : s.HasConnected k := by
      cases k with
      | api n => trivial
      | worker w => rw [Sys.HasConnected, ← hanswers]; exact hconnected
    rw [hanswers, hctx]
    exact hs hconnected'
  · -- what the new answer is depends on the context it was sent on
    rw [hanswers, hctx, cut_concat]
    by_cases hup : s.answer who op net = .connected true
    · simp [hup, ctxAfter]
    · have hconnected' : s.HasConnected k := by
        cases k with
        | api n => trivial
        | worker w =>
          rw [Sys.HasConnected, hanswers, List.mem_append, List.mem_singleton] at hconnected
          exact hconnected.resolve_right fun he => hup he.symm
      have hold := hs hconnected'
      have hcases := exchange_cases s.now s.store (s.ctx k) op net
      rw [← hk] at hcases hold
      change (∃ up, s.answer who op net = _) ∨ (_ ∧ s.answer who op net = _) ∨
        (∃ e, _ ∧ s.answer who op net = _) ∨
          (_ ∧ ((∃ r, s.answer who op net = _) ∨ ∃ e, s.answer who op net = _)) at hcases
      rw [← hk]
      rcases hcases with ⟨up, ha⟩ | ⟨hnull, ha⟩ | ⟨e, hbroken, ha⟩ | ⟨hgood, ⟨r, ha⟩ | ⟨e, ha⟩⟩
      · cases up with
        | true => exact absurd ha hup
        | false => simp [ha, ctxAfter]
      · have hcut : Cut (s.answers (s.client who)) := by
          by_contra hnot
          rw [hnull] at hold
          rcases hold.mpr hnot with hbad | hbad <;> cases hbad
        simp [ha, ctxAfter, hcut]
      · cases e with
        | io =>
          have hnot : ¬ Cut (s.answers (s.client who)) := hold.mp (.inr hbroken)
          simp [ha, ctxAfter, hnot]
        | eof => simp [ha, ctxAfter]
      · have hnot : ¬ Cut (s.answers (s.client who)) := hold.mp (.inl hgood)
        simp [ha, ctxAfter, hnot]
      · have hnot : ¬ Cut (s.answers (s.client who)) := hold.mp (.inl hgood)
        cases e with
        | io => simp [ha, ctxAfter, hnot]
        | eof => simp [ha, ctxAfter]

theorem usable {as : List Action} (hrun : Reaches cfg as s) (k : Client) : Usable s k := by
  refine run_invariant_hist (fun _ (s : Sys cfg) => Usable s k) hrun (fun _ _ => trivial) ?_
    fun as m a m' hm hs _ h => usable_step hm h hs
  intro hconnected
  cases k with
  | api n => exact iff_of_true (.inl rfl) not_cut_nil
  | worker w => cases hconnected

/-! ### A worker that is cut off -/

/-- `exec_command` connects only right after `REDIS_ERR_IO`. -/
def ConnectsAfterIo (last : Option (Wire × Answer)) (op : Wire) : Prop :=
  op = .connect → ∃ c, last = some (.command c, .failed .io)

theorem execCommand_follows (c : Cmd) (last : Option (Wire × Answer)) :
    (execCommand c).Follows ConnectsAfterIo last := by
  refine ⟨fun h => (by cases h), fun a => ?_⟩
  show (afterCommand c a).Follows ConnectsAfterIo _
  cases a with
  | noContext => trivial
  | reply r => trivial
  | connected up => trivial
  | failed e =>
    cases e with
    | eof => trivial
    | io =>
      refine ⟨fun _ => ⟨c, rfl⟩, fun up => ?_⟩
      cases up with
      | connected up =>
        cases up with
        | false => trivial
        | true => exact ⟨fun h => (by cases h), fun a => by cases a <;> trivial⟩
      | _ => trivial

theorem succeeds_follows (c : Cmd) (last : Option (Wire × Answer)) :
    (succeeds c).Follows ConnectsAfterIo last :=
  Prog.follows_bind (execCommand_follows c last) fun r _ => by cases r <;> trivial

theorem iteration_follows (m : Machine) (last : Option (Wire × Answer)) :
    (WorkerPool.iteration cfg m).Follows ConnectsAfterIo last := by
  refine Prog.follows_bind (Prog.follows_bind (execCommand_follows _ _) fun r _ => ?_)
    fun job _ => ?_
  · split
    · exact Prog.follows_bind (Prog.follows_ofExcept _) fun _ _ => trivial
    · trivial
  · cases job with
    | none => trivial
    | some job =>
      refine Prog.follows_bind (succeeds_follows _ _) fun _ _ =>
        Prog.follows_bind (succeeds_follows _ _) fun _ _ =>
          Prog.follows_bind (Prog.follows_ofExcept _) fun result _ =>
            Prog.follows_bind ?_ fun _ _ =>
              Prog.follows_bind (succeeds_follows _ _) fun _ _ => trivial
      exact Prog.follows_bind (Prog.follows_ofExcept _) fun _ _ => succeeds_follows _ _

theorem answers_worker (w : Nat) :
    s.answers (.worker w) = (ownTrace (.worker w) s.log).map Prod.snd := by
  rw [Sys.answers, ownTrace, List.map_filterMap]
  congr 1
  funext e
  cases e with
  | wire who now op executed answer =>
    cases who with
    | handler r => simp [Sys.client]
    | worker w' => by_cases hw : w' = w <;> simp [Sys.client, hw]
  | _ => rfl

/-- The context is what the last answer has made of it. -/
theorem ctx_of_answers {as : List Action} (hrun : Reaches cfg as s) {k : Client} {a : Answer}
    (hlast : (s.answers k).getLast? = some a) : s.ctx k = ctxAfter a := by
  have hall : ∀ a, (s.answers k).getLast? = some a → s.ctx k = ctxAfter a := by
    refine run_invariant_hist
      (fun _ (s : Sys cfg) => ∀ a, (s.answers k).getLast? = some a → s.ctx k = ctxAfter a) hrun
      (fun _ _ => trivial) (fun a h => by cases h) ?_
    intro as m a m' hm hs _ h b hb
    rcases answers_step hm h k with ⟨hanswers, hctx⟩ | ⟨who, net, op, -, -, -, hanswers, hctx⟩
    · rw [hctx]
      exact hs b (hanswers ▸ hb)
    · rw [hanswers, List.getLast?_concat, Option.some.injEq] at hb
      rw [hctx, hb]
  exact hall a hlast

/-- **A worker in its loop connects only on a connection that has met `REDIS_ERR_IO`.** -/
theorem ctx_of_connecting {as : List Action} (hrun : Reaches cfg as s) {w : Nat} {m : Machine}
    {task : Task Wire Answer Exn Unit} {begun : task.start = WorkerPool.iteration cfg m}
    (hw : s.workers w = .busy m task begun) (hop : task.op? = some .connect) :
    s.ctx (.worker w) = .broken .io := by
  obtain ⟨next, hrest⟩ := Task.op?_eq_some.mp hop
  have hpath := task.path
  rw [begun, hrest] at hpath
  obtain ⟨c, hlast⟩ := (iteration_follows m none).of_path hpath rfl
  rw [Option.or_none] at hlast
  obtain ⟨earlier, hown⟩ := worker_trace hrun w
  rw [hw, Worker.trace] at hown
  have hanswer : (s.answers (.worker w)).getLast? = some (.failed .io) := by
    rw [answers_worker, ← hown, List.getLast?_map, List.getLast?_append, hlast]
    rfl
  exact ctx_of_answers hrun hanswer

def Worker.Entered : Worker cfg → Prop
  | .connecting => False
  | .retrying => False
  | _ => True

theorem entered_feed {worker : Worker cfg} (h : worker.Entered) (a : Answer) :
    (worker.feed a).Entered := by
  cases worker with
  | connecting => exact h.elim
  | retrying => exact h.elim
  | _ => trivial

theorem entered_step {a : Action} (h : step cfg s a = some s') {w : Nat}
    (hw : (s.workers w).Entered) : (s'.workers w).Entered := by
  have moved : ∀ {w' : Nat} {worker : Worker cfg}, worker.Entered →
      (Function.update s.workers w' worker w).Entered := by
    intro w' worker hworker
    by_cases hw' : w = w'
    · subst hw'; rw [Function.update_self]; exact hworker
    · rw [Function.update_of_ne hw']; exact hw
  cases a with
  | tick ms => cases h; exact hw
  | stop => cases h; exact hw
  | request r api request env =>
    simp only [step] at h
    split at h
    · cases h; exact hw
    · cases h
  | perform who net =>
    obtain ⟨op, -, rfl⟩ := step_perform_iff.mp h
    rw [perform_workers]
    cases who with
    | handler r => exact hw
    | worker w' =>
      by_cases hw' : w = w'
      · subst hw'
        simp only [Sys.feed, Function.update_self]
        exact entered_feed hw _
      · simp only [Sys.feed, Function.update_of_ne hw']
        exact hw
  | test w' m =>
    obtain ⟨worker, htest, rfl⟩ := Option.map_eq_some_iff.mp h
    by_cases hw' : w = w'
    · subst hw'
      simp only [Function.update_self]
      cases hworker : s.workers w with
      | ready =>
        rw [hworker] at htest
        cases htest
        split <;> trivial
      | retrying => rw [hworker] at hw; exact hw.elim
      | _ => rw [hworker] at htest; cases htest
    · simp only [Function.update_of_ne hw']
      exact hw
  | next w' =>
    simp only [step] at h
    split at h
    · cases h; exact moved trivial
    · cases h
  | terminate w' =>
    simp only [step] at h
    split at h
    · cases h; trivial
    · cases h
  | crash w' => cases h; exact moved trivial

/-- **What is cut stays cut**: a worker that has been cut off gets no reply any more,
however the run goes on. -/
theorem cut_for_ever {as bs : List Action} (hrun : Reaches cfg as s) {w : Nat}
    (hconnected : s.HasConnected (.worker w)) (hentered : (s.workers w).Entered)
    (hcut : Cut (s.answers (.worker w))) (hlater : Lib.run (step cfg) s bs = some s') :
    ∃ l, s'.answers (.worker w) = s.answers (.worker w) ++ l ∧
      ∀ a ∈ l, a = .noContext ∨ a = .failed .eof := by
  have hkept : (s'.workers w).Entered ∧ Cut (s'.answers (.worker w)) ∧
      ∃ l, s'.answers (.worker w) = s.answers (.worker w) ++ l ∧
        ∀ a ∈ l, a = .noContext ∨ a = .failed .eof := by
    refine run_invariant_hist
      (fun _ (s' : Sys cfg) => (s'.workers w).Entered ∧ Cut (s'.answers (.worker w)) ∧
        ∃ l, s'.answers (.worker w) = s.answers (.worker w) ++ l ∧
          ∀ a ∈ l, a = .noContext ∨ a = .failed .eof) hlater (fun _ _ => trivial)
      ⟨hentered, hcut, [], by simp, by simp⟩ ?_
    rintro bs' m a m' hm ⟨henter, hcutm, l, hl, hbad⟩ - h
    have hrunm : Reaches cfg (as ++ bs') m := run_append_iff.mpr ⟨s, hrun, hm⟩
    refine ⟨entered_step h henter, ?_⟩
    rcases answers_step hrunm h (.worker w) with
      ⟨hanswers, -⟩ | ⟨who, net, op, -, hclient, hop, hanswers, -⟩
    · rw [hanswers]
      exact ⟨hcutm, l, hl, hbad⟩
    · obtain rfl : who = .worker w := by
        cases who with
        | handler r => cases hclient
        | worker w' => cases hclient; rfl
      have hconnm : m.HasConnected (.worker w) := by
        rw [Sys.HasConnected, hl]
        exact List.mem_append_left _ hconnected
      have hunusable : ¬ (m.ctx (.worker w) = .good ∨ m.ctx (.worker w) = .broken .io) :=
        fun hok => (usable hrunm (.worker w) hconnm).mp hok hcutm
      have hanswer : m.answer (.worker w) op net = .noContext ∨
          m.answer (.worker w) op net = .failed .eof := by
        cases op with
        | connect =>
          -- it would be on its way to a reconnect, which only `REDIS_ERR_IO` leads to
          change (m.workers w).op? = some .connect at hop
          cases hw : m.workers w with
          | connecting => rw [hw] at henter; exact henter.elim
          | busy mach task begun =>
            rw [hw] at hop
            exact absurd (.inr (ctx_of_connecting hrunm hw hop)) hunusable
          | _ => rw [hw] at hop; cases hop
        | command c =>
          rw [Sys.answer, hclient]
          cases hctx : m.ctx (.worker w) with
          | null => exact .inl rfl
          | good => exact absurd (.inl hctx) hunusable
          | broken e =>
            cases e with
            | io => exact absurd (.inr hctx) hunusable
            | eof => exact .inr rfl
      refine ⟨?_, l ++ [m.answer (.worker w) op net], by rw [hanswers, hl]; simp, ?_⟩
      · rw [hanswers, cut_concat]
        refine .inr ⟨fun hup => ?_, hcutm⟩
        rw [hup] at hanswer
        rcases hanswer with h | h <;> cases h
      · intro a ha
        rcases List.mem_append.mp ha with ha | ha
        · exact hbad a ha
        · exact List.mem_singleton.mp ha ▸ hanswer
  exact hkept.2.2

/-- **When a client gets its replies**, in every run and for every client that has
connected: a command that is issued while the server is up is replied to exactly when
the server has not closed the connection and no reconnect has failed since the client
last connected. -/
theorem command_replied_iff {as : List Action} (hrun : Reaches cfg as s) {k : Client}
    (hconnected : s.HasConnected k) :
    (∀ c, Replies s.now s.store (s.ctx k) c) ↔ ¬ Cut (s.answers k) := by
  rw [← usable hrun k hconnected]
  constructor
  · intro h
    exact replies_iff.mp (h (.llen queueKey))
  · intro h c
    exact replies_iff.mpr h

/-! ### Two outages -/

/-- A worker connects and takes a job from the queue, and its operations meet the fates
of the script. -/
def outageActions (script : Script) : List Action :=
  [.perform (.worker 0) .served, .test 0 (printing "1")] ++
    script.map fun x => .perform (.worker 0) x.2

theorem outage {script : Script} {q : Talk Unit}
    (hpath : (WorkerPool.iteration textConfig (printing "1")).Path
      (script.trace 0 (fun _ => none) .good) q) :
    ∃ s, Reaches textConfig (outageActions script) s ∧ s.HasConnected (.worker 0) ∧
      (s.workers 0).Entered ∧
      s.answers (.worker 0) =
        .connected true :: (script.trace 0 (fun _ => none) .good).map Prod.snd := by
  have hstart := @worker_starts textConfig {} 0 (printing "1") rfl rfl
  have hctx : (workerStarted ({} : Sys textConfig) 0 (printing "1")).ctx (.worker 0) = .good := by
    simp [workerStarted]
  have hw : (workerStarted ({} : Sys textConfig) 0 (printing "1")).workers 0 =
      .busy (printing "1") (.begin (WorkerPool.iteration textConfig (printing "1"))) rfl := by
    simp [workerStarted]
  obtain ⟨task, begun, -, hrun⟩ :=
    @worker_alone _ _ _ _ _ _ script q hw (by rw [hctx]; exact hpath)
  rw [hctx] at hrun
  refine ⟨_, run_append_iff.mpr ⟨_, hstart, hrun⟩, List.mem_cons_self, ?_, ?_⟩
  · show Worker.Entered (Function.update (workerStarted {} 0 (printing "1")).workers 0 _ 0)
    rw [Function.update_self]
    trivial
  · rw [answers_worker]
    show (ownTrace (.worker 0) ([.wire (.worker 0) 0 .connect none (.connected true)] ++
      script.log (.worker 0) 0 (fun _ => none) .good)).map Prod.snd = _
    rw [ownTrace_append, ownTrace_scriptLog]
    rfl

def resumed : Script :=
  [(.command (.brpop queueKey 5), .unsent .io), (.connect, .served),
    (.command (.brpop queueKey 5), .served)]

theorem command_replied_iff_resumed :
    ∃ s, Reaches textConfig (outageActions resumed) s ∧
      ∀ c, Replies s.now s.store (s.ctx (.worker 0)) c := by
  obtain ⟨s, hrun, hconnected, -, hanswers⟩ :=
    @outage resumed (.pure ()) ⟨rfl, rfl, rfl, rfl⟩
  refine ⟨s, hrun, (command_replied_iff hrun hconnected).mpr ?_⟩
  have hlist : s.answers (.worker 0) =
      [] ++ [.connected true] ++ [.failed .io] ++ [.connected true] ++ [.reply .nil] := hanswers
  rw [hlist]
  simp only [cut_concat]
  simp [not_cut_nil]

def closed : Script := [(.command (.brpop queueKey 5), .unsent .eof)]

/-- **A closed connection is for ever**: the client has connected, the server is up
again, and neither a command that is issued now nor any later one of the worker is
replied to. -/
theorem closed_for_ever :
    ∃ s, Reaches textConfig (outageActions closed) s ∧ s.HasConnected (.worker 0) ∧
      (∀ c, ¬ Replies s.now s.store (s.ctx (.worker 0)) c) ∧
      ∀ bs s', Lib.run (step textConfig) s bs = some s' →
        ∃ l, s'.answers (.worker 0) = s.answers (.worker 0) ++ l ∧
          ∀ a ∈ l, a = .noContext ∨ a = .failed .eof := by
  obtain ⟨s, hrun, hconnected, hentered, hanswers⟩ :=
    @outage closed (.pure ()) ⟨rfl, rfl⟩
  have hlist : s.answers (.worker 0) = [.connected true, .failed .eof] := hanswers
  have hcut : Cut (s.answers (.worker 0)) := ⟨[.connected true], .failed .eof, [], hlist, .inl rfl,
    by simp⟩
  refine ⟨s, hrun, hconnected, fun c h => ?_, fun bs s' hlater =>
    cut_for_ever hrun hconnected hentered hcut hlater⟩
  exact (usable hrun _ hconnected).mp (replies_iff.mp h) hcut

end Ocpe.System
