import Ocpe.Lib.Pipeline
import Ocpe.System.Session

/-!
# Taking turns on a connection

A step of `Sys` is a whole operation of a party.  A worker has its client for itself, but the
handlers of an `ApiServer` share one, and an operation of a handler takes three steps there: it is
sent, it meets its fate, and the handler takes the next answer off the connection, whosever
that is.

* `Turn`: a handler only sends while nobody waits on its connection.
* `Wired.view`: the system, in which a handler whose answer has come has taken it.
* `taking_turns`: the runs in which the handlers take turns look like the runs of `Sys`.

Nothing in the code makes them take turns: `Threads.taken_by_another`.
-/

namespace Ocpe.System

open Lib Redis

variable {cfg : Config}

/-- The operation meets its fate; the answer is on its way. -/
def Sys.meet (s : Sys cfg) (who : Party) (op : Wire) (net : Net) : Sys cfg :=
  let ctx := s.ctx (s.client who)
  let (store, ctx', answer) := exchange s.now s.store ctx op net
  { s with
    store := store
    ctx := Function.update s.ctx (s.client who) ctx'
    log := s.log ++ [.wire who s.now op (Sys.executed s.now s.store ctx op net) answer] }

theorem perform_eq_feed (s : Sys cfg) (who : Party) (op : Wire) (net : Net) :
    s.perform who op net = (s.meet who op net).feed who (s.answer who op net) := by
  cases who <;> rfl

def Action.ofHandler : Action → Bool
  | .perform (.handler _) _ => true
  | _ => false

/-- What is no operation of a handler does not look at the handlers, but for a new request. -/
theorem services_cases {s s' : Sys cfg} {a : Action} (h : step cfg s a = some s')
    (ha : a.ofHandler = false) :
    (s'.requests = s.requests ∧ ∀ f : Nat → Option (Handling cfg),
      step cfg { s with requests := f } a = some { s' with requests := f }) ∨
    ∃ r api request env, a = .request r api request env ∧ s.requests r = none ∧
      s' = { s with requests :=
        Function.update s.requests r (some (.begin cfg api request env)) } := by
  cases a with
  | tick ms =>
    cases h
    exact .inl ⟨rfl, fun _ => rfl⟩
  | stop =>
    cases h
    exact .inl ⟨rfl, fun _ => rfl⟩
  | request r api request env =>
    simp only [step] at h
    split at h
    · next hnone =>
      cases h
      exact .inr ⟨r, api, request, env, rfl, Option.isNone_iff_eq_none.mp hnone, rfl⟩
    · cases h
  | perform who net =>
    cases who with
    | handler r => cases ha
    | worker w =>
      obtain ⟨op, hop, rfl⟩ := step_perform_iff.mp h
      exact .inl ⟨rfl, fun _ => step_perform_iff.mpr ⟨op, hop, rfl⟩⟩
  | test w m =>
    obtain ⟨worker, hworker, rfl⟩ := Option.map_eq_some_iff.mp h
    exact .inl ⟨rfl, fun _ => Option.map_eq_some_iff.mpr ⟨worker, hworker, rfl⟩⟩
  | next w =>
    simp only [step] at h
    split at h
    · next hended =>
      cases h
      exact .inl ⟨rfl, fun _ => if_pos hended⟩
    · cases h
  | terminate w =>
    simp only [step] at h
    split at h
    · next e hended =>
      cases h
      refine .inl ⟨rfl, fun f => ?_⟩
      simp only [step, hended]
    · cases h
  | crash w =>
    cases h
    exact .inl ⟨rfl, fun _ => rfl⟩

namespace Turns

/-- The services, and what is on the connections of the handlers. -/
structure Wired (cfg : Config) where
  sys : Sys cfg := {}
  lines : Client → Pipeline Nat Wire Answer := fun _ => {}

inductive Action
  /-- a step that is no operation of a handler -/
  | services (a : System.Action)
  | send (r : Nat)
  /-- the oldest operation on the connection, which is one of this handler, meets its fate -/
  | serve (r : Nat) (net : Net)
  | receive (r : Nat)

/-- What the action is in `Sys`. -/
def Action.atomic? : Action → Option System.Action
  | .services a => some a
  | .serve r net => some (.perform (.handler r) net)
  | _ => none

def atomic (as : List Action) : List System.Action := as.filterMap Action.atomic?

theorem atomic_append (as bs : List Action) : atomic (as ++ bs) = atomic as ++ atomic bs :=
  List.filterMap_append

namespace Wired

variable (s : Wired cfg)

def client (r : Nat) : Client := s.sys.client (.handler r)

def line (r : Nat) : Pipeline Nat Wire Answer := s.lines (s.client r)

/-- The answer that has come for a handler and that it has not taken. -/
def arrived? (r : Nat) : Option Answer :=
  ((s.line r).replies.find? fun x => x.1.caller = r).map (·.2)

/-- A handler has taken the answer that has come for it. -/
def taken (r : Nat) (h : Handling cfg) : Handling cfg :=
  match s.arrived? r with
  | some a => h.feed a
  | none => h

/-- The handlers, where each has taken what has come for it. -/
def handlers (r : Nat) : Option (Handling cfg) := (s.sys.requests r).map (s.taken r)

def view : Sys cfg := { s.sys with requests := s.handlers }

end Wired

def step (cfg : Config) (s : Wired cfg) : Action → Option (Wired cfg)
  | .services a =>
    if a.ofHandler then none
    else (System.step cfg s.sys a).map fun sys => { s with sys }
  | .send r => (s.sys.op? (.handler r)).bind fun op => ((s.line r).send r op).map fun line =>
      { s with lines := Function.update s.lines (s.client r) line }
  | .serve r net => (s.line r).sent.head?.bind fun call =>
    if call.caller = r then
      ((s.line r).serve (s.sys.answer (.handler r) call.command net)).map fun line =>
        { sys := s.sys.meet (.handler r) call.command net
          lines := Function.update s.lines (s.client r) line }
    else none
  | .receive r => ((s.line r).receive r).map fun (line, x) =>
    { sys := s.sys.feed (.handler r) x.reply
      lines := Function.update s.lines (s.client r) line }

abbrev Reaches (cfg : Config) (as : List Action) (s : Wired cfg) : Prop :=
  run (step cfg) {} as = some s

/-- A handler only sends while nobody waits on its connection. -/
def Turn (s : Wired cfg) (a : Action) : Prop :=
  ∀ r, a = .send r → ∀ i, (s.line r).waiting i = none

variable {s s' : Wired cfg} {as : List Action} {a : Action}

theorem step_cases (h : step cfg s a = some s') :
    (∃ b, a = .services b ∧ b.ofHandler = false ∧ System.step cfg s.sys b = some s'.sys ∧
      s'.lines = s.lines) ∨
    (∃ r op line, a = .send r ∧ s.sys.op? (.handler r) = some op ∧ (s.line r).send r op = some line ∧
      s' = { s with lines := Function.update s.lines (s.client r) line }) ∨
    (∃ r net call line, a = .serve r net ∧ (s.line r).sent.head? = some call ∧ call.caller = r ∧
      (s.line r).serve (s.sys.answer (.handler r) call.command net) = some line ∧
      s' = ⟨s.sys.meet (.handler r) call.command net,
        Function.update s.lines (s.client r) line⟩) ∨
    ∃ r line x, a = .receive r ∧ (s.line r).receive r = some (line, x) ∧
      s' = ⟨s.sys.feed (.handler r) x.reply, Function.update s.lines (s.client r) line⟩ := by
  cases a with
  | services b =>
    simp only [step] at h
    split at h
    · cases h
    · next hhandler =>
      obtain ⟨sys, hsys, rfl⟩ := Option.map_eq_some_iff.mp h
      exact .inl ⟨b, rfl, by simpa using hhandler, hsys, rfl⟩
  | send r =>
    obtain ⟨op, hop, h⟩ := Option.bind_eq_some_iff.mp h
    obtain ⟨line, hsend, rfl⟩ := Option.map_eq_some_iff.mp h
    exact .inr (.inl ⟨r, op, line, rfl, hop, hsend, rfl⟩)
  | serve r net =>
    obtain ⟨call, hcall, h⟩ := Option.bind_eq_some_iff.mp h
    split at h
    · next hcaller =>
      obtain ⟨line, hserve, rfl⟩ := Option.map_eq_some_iff.mp h
      exact .inr (.inr (.inl ⟨r, net, call, line, rfl, hcall, hcaller, hserve, rfl⟩))
    · cases h
  | receive r =>
    obtain ⟨⟨line, x⟩, hreceive, rfl⟩ := Option.map_eq_some_iff.mp h
    exact .inr (.inr (.inr ⟨r, line, x, rfl, hreceive, rfl⟩))

/-! ### One at a time -/

/-- Nobody is in another's way, and who waits has sent the operation that it is at. -/
structure InTurn (s : Wired cfg) : Prop where
  alone : ∀ c, (s.lines c).Alone
  waits : ∀ c r call, (s.lines c).waiting r = some call →
    s.client r = c ∧ s.sys.op? (.handler r) = some call.command

theorem inTurn_start : InTurn ({} : Wired cfg) where
  alone _ := Pipeline.alone_empty
  waits _ _ _ h := by cases h

theorem op?_congr {x y : Sys cfg} {r : Nat} (h : y.requests r = x.requests r) :
    y.op? (.handler r) = x.op? (.handler r) ∧ y.client (.handler r) = x.client (.handler r) := by
  simp only [Sys.op?, Sys.client, h, and_self]

theorem InTurn.request (hs : InTurn s) {c : Client} {r : Nat} {call : Call Nat Wire}
    (h : (s.lines c).waiting r = some call) : s.sys.requests r ≠ none := by
  intro hnone
  have hop := (hs.waits c r call h).2
  simp [Sys.op?, hnone] at hop

theorem InTurn.of_line {r : Nat} {line : Pipeline Nat Wire Answer} {sys : Sys cfg} (hs : InTurn s)
    (hline : line.Alone)
    (hkept : ∀ i, i ≠ r → sys.requests i = s.sys.requests i)
    (hclient : sys.client (.handler r) = s.client r)
    (hothers : ∀ i call, i ≠ r → line.waiting i = some call → (s.line r).waiting i = some call)
    (hmine : ∀ call, line.waiting r = some call → sys.op? (.handler r) = some call.command)
    (helsewhere : ∀ c call, c ≠ s.client r → (s.lines c).waiting r ≠ some call) :
    InTurn (⟨sys, Function.update s.lines (s.client r) line⟩ : Wired cfg) := by
  refine ⟨fun c => ?_, fun c i call h => ?_⟩
  · show (Function.update s.lines (s.client r) line c).Alone
    by_cases hc : c = s.client r
    · rw [hc, Function.update_self]
      exact hline
    · rw [Function.update_of_ne hc]
      exact hs.alone c
  · change (Function.update s.lines (s.client r) line c).waiting i = some call at h
    show sys.client (.handler i) = c ∧ sys.op? (.handler i) = some call.command
    by_cases hi : i = r
    · subst hi
      by_cases hc : c = s.client i
      · subst hc
        rw [Function.update_self] at h
        exact ⟨hclient, hmine call h⟩
      · rw [Function.update_of_ne hc] at h
        exact absurd h (helsewhere c call hc)
    · obtain ⟨hop, hsame⟩ := op?_congr (hkept i hi)
      rw [hop, hsame]
      by_cases hc : c = s.client r
      · subst hc
        rw [Function.update_self] at h
        exact hs.waits _ i call (hothers i call hi h)
      · rw [Function.update_of_ne hc] at h
        exact hs.waits c i call h

theorem InTurn.elsewhere (hs : InTurn s) {c : Client} {r : Nat} {call : Call Nat Wire}
    (hc : c ≠ s.client r) : (s.lines c).waiting r ≠ some call := by
  intro h
  exact hc (hs.waits c r call h).1.symm

theorem inTurn_step (hs : InTurn s) (hturn : Turn s a) (h : step cfg s a = some s') :
    InTurn s' := by
  rcases step_cases h with ⟨b, rfl, hb, hstep, hlines⟩ | ⟨r, op, line, rfl, hop, hsend, rfl⟩ |
    ⟨r, net, call, line, rfl, hcall, hcaller, hserve, rfl⟩ | ⟨r, line, x, rfl, hreceive, rfl⟩
  · refine ⟨fun c => hlines ▸ hs.alone c, fun c r call hwaiting => ?_⟩
    rw [hlines] at hwaiting
    have hsame : s'.sys.requests r = s.sys.requests r := by
      rcases services_cases hstep hb with ⟨hsame, -⟩ | ⟨r', api, request, env, rfl, hnone, heq⟩
      · rw [hsame]
      · rw [heq]
        refine Function.update_of_ne ?_ ..
        rintro rfl
        exact hs.request hwaiting hnone
    obtain ⟨hop, hclient⟩ := op?_congr hsame
    obtain ⟨hc, hcommand⟩ := hs.waits c r call hwaiting
    exact ⟨hclient.trans hc, hop.trans hcommand⟩
  · have hwaiting := Pipeline.waiting_send hsend
    refine hs.of_line ((hs.alone _).send (hturn r rfl) hsend) (fun _ _ => rfl) rfl ?_ ?_
      fun c call hc => hs.elsewhere hc
    · intro i call hi h
      rwa [hwaiting, Function.update_of_ne hi] at h
    · intro call h
      rw [hwaiting, Function.update_self] at h
      cases h
      exact hop
  · have hwaiting := Pipeline.waiting_serve hserve
    refine hs.of_line ((hs.alone _).serve hserve) (fun _ _ => rfl) rfl ?_ ?_
      fun c call hc => hs.elsewhere hc
    · intro i call hi h
      rwa [hwaiting] at h
    · intro call h
      rw [hwaiting] at h
      exact (hs.waits _ r call h).2
  · have hwaiting := Pipeline.waiting_receive hreceive
    refine hs.of_line ((hs.alone _).receive hreceive) (fun i hi => Function.update_of_ne hi ..) ?_
      ?_ ?_ fun c call hc => hs.elsewhere hc
    · simp only [Wired.client, Sys.client, Sys.feed, Function.update_self]
      cases s.sys.requests r <;> rfl
    · intro i call hi h
      rwa [hwaiting, Function.update_of_ne hi] at h
    · intro call h
      rw [hwaiting, Function.update_self] at h
      cases h

/-! ### The system that is seen -/

theorem client_view (r : Nat) : s.view.client (.handler r) = s.client r := by
  simp only [Wired.view, Wired.handlers, Wired.client, Sys.client, Option.map_map]
  congr 2
  cases s.sys.requests r with
  | none => rfl
  | some h =>
    simp only [Option.map_some, Function.comp_apply, Wired.taken]
    split <;> rfl

theorem answer_view {r : Nat} {op : Wire} {net : Net} :
    s.view.answer (.handler r) op net = s.sys.answer (.handler r) op net := by
  unfold Sys.answer
  rw [client_view]
  rfl

theorem meet_view {r : Nat} {op : Wire} {net : Net} :
    s.view.meet (.handler r) op net =
      { s.sys.meet (.handler r) op net with requests := s.handlers } := by
  unfold Sys.meet
  rw [client_view]
  rfl

theorem arrived_of_nil {r : Nat} (h : (s.line r).replies = []) : s.arrived? r = none := by
  rw [Wired.arrived?, h]
  rfl

theorem arrived_of_singleton {r : Nat} {x : Call Nat Wire × Answer}
    (h : (s.line r).replies = [x]) :
    s.arrived? r = if x.1.caller = r then some x.2 else none := by
  rw [Wired.arrived?, h, List.find?_cons]
  by_cases hr : x.1.caller = r <;> simp [hr]

theorem arrived_congr {r : Nat} (h : (s'.line r).replies = (s.line r).replies) :
    s'.arrived? r = s.arrived? r := by
  rw [Wired.arrived?, Wired.arrived?, h]

theorem arrived_of_absent (hs : InTurn s) {r : Nat} (hnone : s.sys.requests r = none) {c : Client}
    {x : Call Nat Wire × Answer} (hx : x ∈ (s.lines c).replies) : x.1.caller ≠ r := by
  rintro rfl
  have hmem : x.1 ∈ (s.lines c).outstanding := List.mem_append_left _ (List.mem_map_of_mem hx)
  exact hs.request (((hs.alone c).matched.waiting_iff _ x.1).mpr ⟨hmem, rfl⟩) hnone

theorem handlers_congr {r : Nat} (hrequest : s'.sys.requests r = s.sys.requests r)
    (hreplies : (s'.line r).replies = (s.line r).replies) : s'.handlers r = s.handlers r := by
  have htaken : s'.taken r = s.taken r := by
    funext h
    rw [Wired.taken, Wired.taken, arrived_congr hreplies]
  rw [Wired.handlers, Wired.handlers, hrequest, htaken]

theorem handlers_of_none {r : Nat} (h : s.arrived? r = none) : s.handlers r = s.sys.requests r := by
  have htaken : s.taken r = id := by
    funext k
    rw [Wired.taken, h]
    rfl
  rw [Wired.handlers, htaken, Option.map_id]
  rfl

theorem handlers_of_some {r : Nat} {a : Answer} (h : s.arrived? r = some a) :
    s.handlers r = (s.sys.requests r).map fun k => k.feed a := by
  have htaken : s.taken r = fun k => k.feed a := by
    funext k
    rw [Wired.taken, h]
  rw [Wired.handlers, htaken]

theorem line_update {r i : Nat} {sys : Sys cfg} {line : Pipeline Nat Wire Answer}
    (hclient : sys.client (.handler i) = s.client i) :
    (⟨sys, Function.update s.lines (s.client r) line⟩ : Wired cfg).line i =
      if s.client i = s.client r then line else s.line i := by
  show Function.update s.lines (s.client r) line (sys.client (.handler i)) = _
  rw [hclient]
  split
  · next heq => rw [heq, Function.update_self]
  · next hne => rw [Function.update_of_ne hne, Wired.line]

theorem view_services (hs : InTurn s) {b : System.Action} (hb : b.ofHandler = false)
    (hstep : System.step cfg s.sys b = some s'.sys) (hlines : s'.lines = s.lines) :
    System.step cfg s.view b = some s'.view := by
  have hkept : ∀ i, s'.sys.requests i = s.sys.requests i → s'.handlers i = s.handlers i := by
    intro i hi
    refine handlers_congr hi ?_
    rw [Wired.line, Wired.line, hlines, Wired.client, (op?_congr hi).2, Wired.client]
  rcases services_cases hstep hb with ⟨hsame, hany⟩ | ⟨r, api, request, env, rfl, hnone, heq⟩
  · have hhandlers : s.handlers = s'.handlers :=
      funext fun i => (hkept i (congrFun hsame i)).symm
    rw [Wired.view, hany, hhandlers]
    rfl
  · have hnew : s'.sys.requests r = some (.begin cfg api request env) := by
      rw [heq]
      exact Function.update_self ..
    have harrived : s'.arrived? r = none := by
      rw [Wired.arrived?, Option.map_eq_none_iff, List.find?_eq_none]
      intro x hx
      rw [Wired.line, hlines] at hx
      simpa using arrived_of_absent hs hnone hx
    have hhandlers : Function.update s.handlers r (some (.begin cfg api request env)) =
        s'.handlers := by
      funext i
      by_cases hi : i = r
      · subst hi
        rw [Function.update_self, handlers_of_none harrived, hnew]
      · rw [Function.update_of_ne hi]
        refine (hkept i ?_).symm
        rw [heq]
        exact Function.update_of_ne hi ..
    have hfree : (s.view.requests r).isNone = true := by
      show ((s.sys.requests r).map _).isNone = true
      rw [hnone]
      rfl
    refine (if_pos hfree).trans ?_
    have hseen : s'.view = { s.sys with requests := s'.handlers } := by rw [Wired.view, heq]
    rw [hseen, ← hhandlers]
    rfl

theorem view_send {r : Nat} {op : Wire} {line : Pipeline Nat Wire Answer}
    (hsend : (s.line r).send r op = some line) :
    Wired.view { s with lines := Function.update s.lines (s.client r) line } = s.view := by
  have hreplies : line.replies = (s.line r).replies := by rw [(Pipeline.send_eq_some hsend).2]
  have hhandlers : Wired.handlers { s with lines := Function.update s.lines (s.client r) line } =
      s.handlers := by
    funext i
    refine handlers_congr rfl ?_
    rw [line_update rfl]
    split
    · next heq => rw [hreplies, Wired.line, Wired.line, heq]
    · rfl
  rw [Wired.view, Wired.view, hhandlers]

theorem view_serve (hs : InTurn s) {r : Nat} {net : Net} {call : Call Nat Wire}
    {line : Pipeline Nat Wire Answer} (hcall : (s.line r).sent.head? = some call)
    (hcaller : call.caller = r)
    (hserve : (s.line r).serve (s.sys.answer (.handler r) call.command net) = some line) :
    System.step cfg s.view (.perform (.handler r) net) =
      some (Wired.view ⟨s.sys.meet (.handler r) call.command net,
        Function.update s.lines (s.client r) line⟩) := by
  generalize hnew : (⟨s.sys.meet (.handler r) call.command net,
    Function.update s.lines (s.client r) line⟩ : Wired cfg) = s'
  obtain ⟨hsent, hreplies⟩ := (hs.alone _).of_sent hcall
  have hwaiting : (s.line r).waiting r = some call := by
    refine ((hs.alone _).matched.waiting_iff r call).mpr ⟨?_, hcaller⟩
    exact List.mem_append_right _ (by rw [hsent]; exact List.mem_singleton_self call)
  have hbefore : ∀ i, s.client i = s.client r → s.handlers i = s.sys.requests i := by
    intro i hi
    refine handlers_of_none (arrived_of_nil ?_)
    rwa [Wired.line, hi]
  have hop : s.view.op? (.handler r) = some call.command := by
    rw [← (hs.waits _ r call hwaiting).2]
    exact (op?_congr (hbefore r rfl)).1
  have hline : ∀ i, (s'.line i).replies = if s.client i = s.client r then
      [(call, s.sys.answer (.handler r) call.command net)] else (s.line i).replies := by
    intro i
    obtain ⟨call', sent, hsent', rfl⟩ := Pipeline.serve_eq_some hserve
    cases hsent.symm.trans hsent'
    have hclient : (s.sys.meet (.handler r) call.command net).client (.handler i) = s.client i := rfl
    rw [← hnew, line_update hclient]
    split
    · show (s.line r).replies ++ _ = _
      rw [Wired.line, hreplies]
      rfl
    · rfl
  have hhandlers : s'.handlers = Function.update s.handlers r
      ((s.handlers r).map fun h => h.feed (s.sys.answer (.handler r) call.command net)) := by
    have hrequests : s'.sys.requests = s.sys.requests := by rw [← hnew]; rfl
    funext i
    by_cases hi : i = r
    · subst hi
      rw [Function.update_self, hbefore i rfl, ← hrequests]
      refine handlers_of_some ?_
      rw [arrived_of_singleton ((hline i).trans (if_pos rfl)), if_pos hcaller]
    · rw [Function.update_of_ne hi]
      by_cases hc : s.client i = s.client r
      · rw [hbefore i hc, ← hrequests]
        refine handlers_of_none ?_
        rw [arrived_of_singleton ((hline i).trans (if_pos hc)), if_neg]
        exact fun heq => hi (heq.symm.trans hcaller)
      · exact handlers_congr (congrFun hrequests i) ((hline i).trans (if_neg hc))
  refine step_perform_iff.mpr ⟨_, hop, ?_⟩
  rw [perform_eq_feed, answer_view, meet_view]
  show { s'.sys with requests := s'.handlers } = _
  rw [hhandlers, ← hnew]
  rfl

theorem view_receive (hs : InTurn s) {r : Nat} {line : Pipeline Nat Wire Answer}
    {x : Receipt Nat Wire Answer} (hreceive : (s.line r).receive r = some (line, x)) :
    Wired.view ⟨s.sys.feed (.handler r) x.reply, Function.update s.lines (s.client r) line⟩ =
      s.view := by
  generalize hnew : (⟨s.sys.feed (.handler r) x.reply,
    Function.update s.lines (s.client r) line⟩ : Wired cfg) = s'
  have hclient : ∀ i, (s.sys.feed (.handler r) x.reply).client (.handler i) = s.client i := by
    intro i
    by_cases hi : i = r
    · subst hi
      simp only [Wired.client, Sys.client, Sys.feed, Function.update_self]
      cases s.sys.requests i <;> rfl
    · exact (op?_congr (Function.update_of_ne hi ..)).2
  have hown : x.got = x.mine :=
    ((hs.alone (s.client r)).matched.own_iff hreceive).mpr (hs.alone _).oldest
  obtain ⟨hwaiting, rest, hreplies, rfl⟩ := Pipeline.receive_eq_some hreceive
  have hcaller : x.got.caller = r := by
    rw [hown]
    exact (((hs.alone _).matched.waiting_iff r x.mine).mp hwaiting).2
  obtain ⟨-, rfl⟩ := (hs.alone _).of_replied hreplies
  have hline : ∀ i, (s'.line i).replies = if s.client i = s.client r then [] else
      (s.line i).replies := by
    intro i
    rw [← hnew, line_update (hclient i)]
    split <;> rfl
  have hhandlers : s'.handlers = s.handlers := by
    funext i
    by_cases hc : s.client i = s.client r
    · have hbefore : s.arrived? i = if x.got.caller = i then some x.reply else none :=
        arrived_of_singleton (x := (x.got, x.reply)) (by rw [Wired.line, hc]; exact hreplies)
      rw [handlers_of_none (arrived_of_nil ((hline i).trans (if_pos hc))), ← hnew]
      by_cases hi : i = r
      · subst hi
        rw [if_pos hcaller] at hbefore
        rw [handlers_of_some hbefore]
        exact Function.update_self ..
      · rw [if_neg fun heq => hi (heq.symm.trans hcaller)] at hbefore
        rw [handlers_of_none hbefore]
        exact Function.update_of_ne hi ..
    · refine handlers_congr ?_ ((hline i).trans (if_neg hc))
      rw [← hnew]
      refine Function.update_of_ne ?_ ..
      rintro rfl
      exact hc rfl
  show { s'.sys with requests := s'.handlers } = { s.sys with requests := s.handlers }
  rw [hhandlers, ← hnew]
  rfl

/-- **A step is seen as one of `Sys`, or not at all.** -/
theorem view_step (hs : InTurn s) (h : step cfg s a = some s') :
    (∀ b, a.atomic? = some b → System.step cfg s.view b = some s'.view) ∧
      (a.atomic? = none → s'.view = s.view) := by
  rcases step_cases h with ⟨b, rfl, hb, hstep, hlines⟩ | ⟨r, op, line, rfl, hop, hsend, rfl⟩ |
    ⟨r, net, call, line, rfl, hcall, hcaller, hserve, rfl⟩ | ⟨r, line, x, rfl, hreceive, rfl⟩
  · refine ⟨fun b' hb' => ?_, fun hnone => by cases hnone⟩
    cases hb'
    exact view_services hs hb hstep hlines
  · exact ⟨fun b hb' => (by cases hb'), fun _ => view_send hsend⟩
  · refine ⟨fun b hb' => ?_, fun hnone => by cases hnone⟩
    cases hb'
    exact view_serve hs hcall hcaller hserve
  · exact ⟨fun b hb' => (by cases hb'), fun _ => view_receive hs hreceive⟩

/-- **A run in which the handlers take turns** is seen as a run of `Sys`. -/
theorem view_run (hs : InTurn s) (hrun : run (step cfg) s as = some s')
    (hturns : AllSteps (step cfg) Turn s as) :
    InTurn s' ∧ run (System.step cfg) s.view (atomic as) = some s'.view :=
  ⟨run_invariant_steps InTurn hrun hturns hs fun _ _ _ hm ha h => inTurn_step hm ha h,
    run_proj_steps Wired.view Action.atomic? InTurn hrun hturns hs
      (fun _ _ _ hm ha h => inTurn_step hm ha h) (fun _ _ _ b hm _ h hb => (view_step hm h).1 b hb)
      fun _ _ _ hm _ h hnone => (view_step hm h).2 hnone⟩

theorem view_reaches (hrun : Reaches cfg as s) (hturns : AllSteps (step cfg) Turn {} as) :
    InTurn s ∧ System.Reaches cfg (atomic as) s.view := view_run inTurn_start hrun hturns

theorem view_of_ended {r : Nat} {h : Handling cfg} (hr : s.sys.requests r = some h)
    (hend : h.task.op? = none) : s.view.requests r = some h := by
  show (s.sys.requests r).map (s.taken r) = some h
  rw [hr, Option.map_some, Wired.taken]
  split
  · next a _ =>
    show some { h with task := h.task.feed a, begun := _ } = some h
    simp only [Task.feed_of_op?_none hend]
  · rfl

theorem view_continues {r : Nat} {h : Handling cfg} (hr : s.sys.requests r = some h) :
    ∃ h', s.view.requests r = some h' ∧ h.Continues h' := by
  refine ⟨s.taken r h, ?_, ?_⟩
  · show (s.sys.requests r).map (s.taken r) = _
    rw [hr, Option.map_some]
  · rw [Wired.taken]
    split
    · exact h.continues_feed _
    · exact .refl h

theorem distinctIds_view (hids : DistinctIds s.sys) : DistinctIds s.view := by
  have henv : ∀ r k, s.view.requests r = some k → ∃ h, s.sys.requests r = some h ∧ k.env = h.env := by
    intro r k hk
    obtain ⟨h, hr, rfl⟩ := Option.map_eq_some_iff.mp hk
    obtain ⟨k, hk, hcontinues⟩ := view_continues hr
    cases (show s.view.requests r = some _ from Option.map_eq_some_iff.mpr ⟨h, hr, rfl⟩).symm.trans hk
    exact ⟨h, hr, hcontinues.env⟩
  intro r r' k k' hk hk' hsame
  obtain ⟨h, hr, henv₁⟩ := henv r k hk
  obtain ⟨h', hr', henv₂⟩ := henv r' k' hk'
  exact hids r r' h h' hr hr' (by rw [← henv₁, ← henv₂, hsame])

/-! ### Every run of the system is one of these -/

/-- An operation of a handler in its three steps. -/
def spread : System.Action → List Action
  | .perform (.handler r) net => [.send r, .serve r net, .receive r]
  | a => [.services a]

theorem atomic_spread (a : System.Action) : atomic (spread a) = [a] := by
  cases a with
  | perform who net => cases who <;> rfl
  | _ => rfl

def Idle (s : Wired cfg) : Prop := ∀ c i, (s.lines c).waiting i = none

theorem view_of_idle (hs : InTurn s) (hidle : Idle s) : s.view = s.sys := by
  have hhandlers : s.handlers = s.sys.requests := by
    funext r
    refine handlers_of_none (arrived_of_nil ?_)
    have hnil := (hs.alone (s.client r)).matched.outstanding_eq_nil (hidle _)
    exact List.map_eq_nil_iff.mp (List.append_eq_nil_iff.mp hnil).1
  rw [Wired.view, hhandlers]

theorem run_spread (hs : InTurn s) (hidle : Idle s) {a : System.Action} {sys : Sys cfg}
    (h : System.step cfg s.sys a = some sys) :
    ∃ s', run (step cfg) s (spread a) = some s' ∧ s'.sys = sys ∧ Idle s' ∧
      AllSteps (step cfg) Turn s (spread a) := by
  have alone : spread a = [.services a] → a.ofHandler = false →
      ∃ s', run (step cfg) s (spread a) = some s' ∧ s'.sys = sys ∧ Idle s' ∧
        AllSteps (step cfg) Turn s (spread a) := by
    intro hspread ha
    have hstep : step cfg s (.services a) = some { s with sys } := by simp [step, ha, h]
    rw [hspread]
    refine ⟨_, run_single hstep, rfl, hidle, allSteps_cons hstep ?_ trivial⟩
    intro r hr
    cases hr
  cases a with
  | perform who net =>
    cases who with
    | worker w => exact alone rfl rfl
    | handler r =>
      obtain ⟨op, hop, rfl⟩ := System.step_perform_iff.mp h
      obtain ⟨q₁, q₂, q₃, call, x, hsend, hcall, hcaller, hcommand, hserve, hreceive, hreply, hnone⟩ :=
        Pipeline.exists_turn (hs.alone (s.client r)) (hidle _) r op
          (s.sys.answer (.handler r) op net)
      let s₁ : Wired cfg := { s with lines := Function.update s.lines (s.client r) q₁ }
      let s₂ : Wired cfg := ⟨s.sys.meet (.handler r) op net, Function.update s₁.lines (s.client r) q₂⟩
      let s₃ : Wired cfg := ⟨s₂.sys.feed (.handler r) x.reply,
        Function.update s₂.lines (s.client r) q₃⟩
      have hline₁ : s₁.line r = q₁ := Function.update_self ..
      have hline₂ : s₂.line r = q₂ := Function.update_self ..
      have h₁ : step cfg s (.send r) = some s₁ := by
        simp only [step, hop, Option.bind_some]
        exact congrArg (Option.map _) hsend
      have h₂ : step cfg s₁ (.serve r net) = some s₂ := by
        simp only [step, hline₁, hcall, Option.bind_some, if_pos hcaller, hcommand]
        exact congrArg (Option.map _) hserve
      have h₃ : step cfg s₂ (.receive r) = some s₃ := by
        simp only [step, hline₂, hreceive, Option.map_some]
        rfl
      refine ⟨s₃, run_cons_iff.mpr ⟨s₁, h₁, run_cons_iff.mpr ⟨s₂, h₂, run_single h₃⟩⟩, ?_, ?_, ?_⟩
      · rw [perform_eq_feed, ← hreply]
      · intro c i
        show (Function.update s₂.lines (s.client r) q₃ c).waiting i = none
        by_cases hc : c = s.client r
        · rw [hc, Function.update_self]
          exact hnone i
        · simp only [s₂, s₁, Function.update_of_ne hc]
          exact hidle c i
      · refine allSteps_cons h₁ (fun r' hr' i => hidle _ i) (allSteps_cons h₂ ?_
          (allSteps_cons h₃ ?_ trivial))
        · intro r' hr'
          cases hr'
        · intro r' hr'
          cases hr'
  | _ => exact alone rfl rfl

theorem run_of_system (hs : InTurn s) (hidle : Idle s) {bs : List System.Action} {sys : Sys cfg}
    (h : run (System.step cfg) s.sys bs = some sys) :
    ∃ as s', run (step cfg) s as = some s' ∧ AllSteps (step cfg) Turn s as ∧ atomic as = bs ∧
      s'.sys = sys ∧ InTurn s' ∧ Idle s' := by
  induction bs generalizing s with
  | nil =>
    cases h
    exact ⟨[], s, rfl, trivial, rfl, rfl, hs, hidle⟩
  | cons b bs ih =>
    obtain ⟨sys₁, hstep, hrest⟩ := run_cons_iff.mp h
    obtain ⟨s₁, hrun₁, rfl, hidle₁, hturns₁⟩ := run_spread hs hidle hstep
    obtain ⟨as, s', hrun, hturns, hatomic, hsys, hs', hidle'⟩ :=
      ih (view_run hs hrun₁ hturns₁).1 hidle₁ hrest
    refine ⟨spread b ++ as, s', run_append_iff.mpr ⟨s₁, hrun₁, hrun⟩,
      allSteps_append hrun₁ hturns₁ hturns, ?_, hsys, hs', hidle'⟩
    rw [atomic_append, atomic_spread, hatomic]
    rfl

theorem reaches_of_system {bs : List System.Action} {sys : Sys cfg} (h : System.Reaches cfg bs sys) :
    ∃ as s, Reaches cfg as s ∧ AllSteps (step cfg) Turn {} as ∧ atomic as = bs ∧ s.sys = sys ∧
      s.view = sys := by
  obtain ⟨as, s, hrun, hturns, hatomic, rfl, hs, hidle⟩ :=
    run_of_system inTurn_start (fun _ _ => rfl) h
  exact ⟨as, s, hrun, hturns, hatomic, rfl, view_of_idle hs hidle⟩

/-- **Taking turns makes an operation one step.**  The runs of `Sys` are exactly what the runs in
which the handlers of each `ApiServer` take turns on its connection look like, and a handler that
has come to its end is seen as it is. -/
theorem taking_turns (cfg : Config) :
    (∀ bs sys, System.Reaches cfg bs sys ↔ ∃ as s, Reaches cfg as s ∧
      AllSteps (step cfg) Turn {} as ∧ atomic as = bs ∧ s.view = sys) ∧
    ∀ as s, Reaches cfg as s → AllSteps (step cfg) Turn {} as → ∀ r h,
      s.sys.requests r = some h → h.task.op? = none → s.view.requests r = some h := by
  refine ⟨fun bs sys => ⟨fun h => ?_, ?_⟩, fun as s _ _ r h hr hend => view_of_ended hr hend⟩
  · obtain ⟨as, s, hrun, hturns, hatomic, -, hview⟩ := reaches_of_system h
    exact ⟨as, s, hrun, hturns, hatomic, hview⟩
  · rintro ⟨as, s, hrun, hturns, rfl, rfl⟩
    exact (view_reaches hrun hturns).2

/-- Ann's submission, with each operation of her handlers in three steps. -/
theorem taking_turns_ann : ∃ as s h response, Reaches textConfig as s ∧ atomic as = inOrder ∧
    System.Reaches textConfig inOrder s.view ∧ s.view.requests 1 = some h ∧
    h.task.rest = .pure response ∧ response.status = 202 := by
  obtain ⟨h₀, h₁, response, -, -, -, hrest, h202, hrun⟩ := ann_in_order
  obtain ⟨hruns, hends⟩ := taking_turns textConfig
  obtain ⟨as, s, hreaches, hturns, hatomic, hsys, -⟩ := reaches_of_system hrun
  have hr : s.sys.requests 1 = some h₁ := by
    rw [hsys]
    simp [workerServed, announced, enqueued]
  exact ⟨as, s, h₁, response, hreaches, hatomic,
    (hruns inOrder s.view).mpr ⟨as, s, hreaches, hturns, hatomic, rfl⟩,
    hends as s hreaches hturns 1 h₁ hr (Task.op?_of_pure hrest), hrest, h202⟩

end Turns

end Ocpe.System
