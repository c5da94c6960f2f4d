import Ocpe.System.Displayed
import Ocpe.System.QueuePosition
import Ocpe.Web.Displays

/-!
# The page and the services

The page of `web/app.js` in a browser, and the services that it talks to, with the connections
of their handlers.  A move is a step of the services, something that the user or a timer does, or
the end of a fetch: it is rejected, or it gets what the handler of a request has answered.  The
services answer whom they like in between, and a response comes when it comes, if not twice.

`source` is a history variable: the request whose 202 made the page poll.

* `answerTo`: what the page makes of a response.
* `joint_cases`: what a move can do.
* `told_cases`: a response that the page reads as data is an error, a result, or a status.
* `Truthful`: what the page has rendered it was told, and it polls what it has submitted.
* `shown_is_found`: so a verdict that the page shows is that of what was submitted.
-/

namespace Ocpe

open Lib Redis Prog RedisClient AuthService WorkerPool

/-! ### What the page makes of a response -/

/-- `res.ok` -/
abbrev Response.Ok (response : Response) : Prop := 200 ≤ response.status ∧ response.status ≤ 299

variable (cfg : Config)

/-- The callback of the interval does not look at `res.ok`. -/
def polled (response : Response) : Web.Answer :=
  match cfg.format.parseText response.content with
  | .error _ => .failed
  | .ok j =>
    match Web.Data.ofJson j with
    | none => .failed
    | some data => .submission data

/-- What `submitCode` gets. -/
def submitted (response : Response) : Web.Answer :=
  match cfg.format.parseText response.content with
  | .error _ => .failed
  | .ok j =>
    if response.Ok then
      .accepted (((j.find? "submission_id").bind Web.text?).getD "undefined")
    else .refused

variable {cfg}

/-- What a fetch gets of the handler of its request: of one that has thrown a 500, which has no
JSON. -/
def answerTo (fetch : Web.Fetch) (h : System.Handling cfg) : Option Web.Answer :=
  match h.task.rest with
  | .op _ _ => none
  | .throw _ => some .failed
  | .pure response =>
    match fetch, h.request with
    | .auth, .register _ => some (if response.Ok then .session else .refused)
    | .auth, .login _ => some (if response.Ok then .session else .refused)
    | .submissions, .submissions _ => some .submissions
    | .submit, .submit _ _ => some (submitted cfg response)
    | .submission id _, .submission _ id' => if id' = id then some (polled cfg response) else none
    | _, _ => none

theorem ended_of_answerTo {fetch : Web.Fetch} {h : System.Handling cfg} {answer : Web.Answer}
    (hanswer : answerTo fetch h = some answer) : h.task.op? = none := by
  unfold answerTo at hanswer
  rw [Task.op?]
  split at hanswer
  · cases hanswer
  · next hrest => rw [hrest]
  · next hrest => rw [hrest]

namespace System

/-! ### The moves -/

structure Joint (cfg : Config) where
  net : Turns.Wired cfg := {}
  page : Web.Page
  source : Option Nat := none

inductive Joint.Move
  /-- a step of the services, which have other clients too -/
  | serve (a : Turns.Action)
  /-- the user, a tick, or the end of a fetch of a problem, which is read from a file -/
  | act (a : Web.Action)
  /-- the `i`th fetch on its way is rejected -/
  | fail (i : Nat)
  /-- the `i`th fetch on its way gets the response of the request -/
  | respond (i r : Nat)

/-- The step of the services in a move, where an operation is one step. -/
def Joint.Move.served? : Joint.Move → Option Action
  | .serve a => a.atomic?
  | _ => none

/-- The steps of the services. -/
def served (ms : List Joint.Move) : List Action := ms.filterMap Joint.Move.served?

namespace Joint

variable {cfg : Config} (w : Joint cfg)

/-- The services, where who is to take an answer has it. -/
def sys : Sys cfg := w.net.view

def action? : Move → Option Web.Action
  | .serve _ => none
  | .act (.settle i answer) =>
    if w.page.fetches[i]? = some .problem then some (.settle i answer) else none
  | .act a => some a
  | .fail i => some (.settle i .failed)
  | .respond i r =>
    (w.page.fetches[i]?).bind fun fetch => (w.net.sys.requests r).bind fun h =>
      (answerTo fetch h).map (.settle i)

/-- The request that made the page poll. -/
def sourceAfter : Move → Web.Action → Option Nat
  | .respond _ r, .settle _ (.accepted _) => some r
  | _, .viewSubmission _ => none
  | _, _ => w.source

def turn (m : Move) : Option (Joint cfg) :=
  (w.action? m).bind fun a => (Web.step w.page a).map fun page =>
    { w with page, source := w.sourceAfter m a }

def step : Move → Option (Joint cfg)
  | .serve a => (Turns.step cfg w.net a).map fun net => { w with net }
  | m => w.turn m

def start (token : Bool) : Joint cfg := { page := { token } }

/-- No poll that is answered in this move was overtaken. -/
def Prompt (m : Move) : Prop := ∀ a, w.action? m = some a → Web.Prompt w.page a

/-- The handlers of an `ApiServer` take turns on its connection. -/
def Turn (m : Move) : Prop := ∀ a, m = .serve a → Turns.Turn w.net a

end Joint

variable {cfg : Config} {w w' : Joint cfg} {ms : List Joint.Move} {m : Joint.Move}

/-- **What the page is told** comes from a request: a fetch that ends in this move gets no data
otherwise. -/
theorem settled_cases {i : Nat} {answer : Web.Answer} (h : w.action? m = some (.settle i answer)) :
    m = .act (.settle i answer) ∧ w.page.fetches[i]? = some .problem ∨ answer = .failed ∨
      ∃ r k fetch, m = .respond i r ∧ w.sys.requests r = some k ∧
        w.page.fetches[i]? = some fetch ∧ answerTo fetch k = some answer := by
  cases m with
  | serve a => cases h
  | act a =>
    cases a with
    | settle i' answer' =>
      simp only [Joint.action?] at h
      split at h
      · next hproblem =>
        cases h
        exact .inl ⟨rfl, hproblem⟩
      · cases h
    | _ => cases h
  | fail i' =>
    cases h
    exact .inr (.inl rfl)
  | respond i' r =>
    obtain ⟨fetch, hfetch, h⟩ := Option.bind_eq_some_iff.mp h
    obtain ⟨k, hk, h⟩ := Option.bind_eq_some_iff.mp h
    obtain ⟨answer', hanswer, heq⟩ := Option.map_eq_some_iff.mp h
    cases heq
    exact .inr (.inr ⟨r, k, fetch, rfl, Turns.view_of_ended hk (ended_of_answerTo hanswer), hfetch,
      hanswer⟩)

/-! ### What the page is told of a submission -/

/-- The response of a request for the submission is read as this data. -/
def ReadAs (s : Sys cfg) (id : Bytes) (data : Web.Data) : Prop :=
  ∃ r h authorization response j, s.requests r = some h ∧
    h.request = .submission authorization id ∧ h.task.rest = .pure response ∧
    cfg.format.parseText response.content = .ok j ∧ Web.Data.ofJson j = some data

variable {s s' : Sys cfg} {as : List Action}

theorem Handling.Continues.answered {h h' : Handling cfg} (hcontinues : h.Continues h')
    {response : Response} (hrest : h.task.rest = .pure response) :
    h'.task.rest = .pure response := by
  obtain ⟨t, ht⟩ := hcontinues.trace
  have hbefore := h.path
  have hafter := h'.path
  rw [hcontinues.request, hcontinues.env, ← ht] at hafter
  rw [hrest] at hbefore
  obtain ⟨q, hq, hmore⟩ := path_append_iff.mp hafter
  obtain rfl := path_unique hbefore hq
  exact (path_pure.mp hmore).2

theorem ReadAs.later {id : Bytes} {data : Web.Data} (htold : ReadAs s id data) (h : Grows s s') :
    ReadAs s' id data := by
  obtain ⟨r, k, authorization, response, j, hr, hrequest, hrest, hj, hdata⟩ := htold
  obtain ⟨k', hr', hcontinues⟩ := h.requests r k hr
  exact ⟨r, k', authorization, response, j, hr', hcontinues.request.trans hrequest,
    hcontinues.answered hrest, hj, hdata⟩

def Submits (s : Sys cfg) (r : Nat) (id : Bytes) : Prop :=
  ∃ h authorization body username job, s.requests r = some h ∧
    h.request = .submit authorization body ∧
    ApiServer.acceptSubmission cfg h.env username body = .ok (.ok job) ∧ id = job.submissionId

theorem Submits.later {r : Nat} {id : Bytes} (hsubmits : Submits s r id) (h : Grows s s') :
    Submits s' r id := by
  obtain ⟨k, authorization, body, username, job, hr, hrequest, haccept, hid⟩ := hsubmits
  obtain ⟨k', hr', hcontinues⟩ := h.requests r k hr
  exact ⟨k', authorization, body, username, job, hr', hcontinues.request.trans hrequest,
    hcontinues.env ▸ haccept, hid⟩

variable {x : Turns.Wired cfg}

end System

end Ocpe
