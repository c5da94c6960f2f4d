import Mathlib.Data.List.Perm.Basic
import Ocpe.Lib.Run
import Ocpe.Web.RenderResult

/-!
# Polling in the page

The page of `web/app.js` as a machine: what the user clicks on, the ticks of the intervals,
and the fetches on their way, which are settled in any order.  The callback of an interval
knows the submission that it asks for; the variable `pollTimer` and the area of the result
are there once for all of them.

`log` is a history variable: the calls of `pollSubmission`, the responses that were rendered,
and the intervals that were cleared and why.  The page does not look at it.

* `Faithful`: what is rendered is for the submission that was polled last, nothing but a
  final result follows a final result, and a response clears no interval but its own.
* `faithful_iff_prompt`: so it is in a run if and only if no poll that is answered has been
  overtaken.

An interval ticks every second, whatever is on its way: `overtaken_answer`.
-/

namespace Ocpe.Web

open Lib

inductive Section
  | problems | editor | result | history | auth
  deriving DecidableEq, Repr

/-- A fetch on its way.  A poll knows its submission; `sent` is how long the log was when it
was sent, and is only there for the proofs. -/
inductive Fetch
  | auth
  | problem
  | submissions
  | submit
  | submission (id : Bytes) (sent : Nat)
  deriving DecidableEq, Repr

/-- The submission that a poll asks for, and when it was sent. -/
def Fetch.poll? : Fetch → Option (Bytes × Nat)
  | .submission id sent => some (id, sent)
  | _ => none

/-- How a fetch is settled: the JSON that arrives, as far as it matters here. -/
inductive Answer
  /-- the fetch or the reading of its body is rejected -/
  | failed
  /-- the response is not `ok`, and is the JSON of an error -/
  | refused
  | session
  | problem (id : Bytes)
  | submissions
  | accepted (submissionId : Bytes)
  | submission (data : Data)
  deriving DecidableEq, Repr

/-- The `data` of a poll, which does not look at the status of the response. -/
def Answer.data? : Answer → Option Data
  | .submission data => some data
  | .refused => some {}
  | _ => none

inductive Cause
  | response (id : Bytes) (data : Data)
  | navigation
  | poll
  deriving DecidableEq, Repr

inductive Event
  | polled (id : Bytes)
  | rendered (id : Bytes) (data : Data)
  | cleared (id : Bytes) (cause : Cause)
  deriving DecidableEq, Repr

/-- `result-summary` on the page. -/
inductive SummaryArea
  | empty
  /-- `PENDING...` -/
  | pending
  | result (summary : Summary)
  deriving DecidableEq, Repr

structure Page where
  /-- there is a token in `localStorage` -/
  token : Bool := false
  /-- the id of the current problem; what came instead of one has no id -/
  currentProblem : Option (Option Bytes) := none
  /-- `submit-btn` is disabled -/
  submitting : Bool := false
  visible : Section → Bool := fun x => x = .problems
  pollTimer : Option Nat := none
  /-- the number of calls of `setInterval`, which is the timer that it returned last -/
  timers : Nat := 0
  /-- the intervals that tick, each with the submission its callback asks for -/
  intervals : List (Nat × Bytes) := []
  fetches : List Fetch := []
  summary : SummaryArea := .empty
  details : Option Details := none
  log : List Event := []

def Page.polls (p : Page) : List (Bytes × Nat) := p.fetches.filterMap Fetch.poll?

inductive Action
  | logout
  | showAuth
  | hideAuth
  | submitAuth
  | openProblem (id : Bytes)
  | showHistory
  | viewSubmission (id : Bytes)
  | showProblems
  | showEditor
  | submitCode
  | tick (timer : Nat)
  /-- the `i`th fetch on its way is settled -/
  | settle (i : Nat) (answer : Answer)
  deriving DecidableEq, Repr

namespace Page

variable (p : Page)

def showOnly (x : Section) : Page := { p with visible := fun y => y = x }

/-- `if (pollTimer) clearInterval(pollTimer)` -/
def clearInterval (cause : Cause) : Page :=
  match p.pollTimer with
  | none => p
  | some timer =>
    { p with
      intervals := p.intervals.filter (·.1 ≠ timer)
      log := p.log ++ (p.intervals.filter (·.1 = timer)).map fun x => .cleared x.2 cause }

def showProblems : Page := (p.showOnly .problems).clearInterval .navigation

def showEditor : Page := (p.showOnly .editor).clearInterval .navigation

def showResult : Page := p.showOnly .result

def showAuth : Page := p.showOnly .auth

def hideAuth : Page :=
  { p with visible := fun x => x = .problems || (p.visible x && !(x = .auth)) }

/-- `setInterval`, for a callback that asks for the submission. -/
def setInterval (id : Bytes) : Page :=
  { p with
    timers := p.timers + 1
    intervals := p.intervals ++ [(p.timers + 1, id)]
    pollTimer := some (p.timers + 1)
    log := p.log ++ [.polled id] }

def pollSubmission (id : Bytes) : Page :=
  ({ p with summary := .pending }.clearInterval .poll).setInterval id

def renderResult (id : Bytes) (data : Data) : Page :=
  { p with
    summary := .result (renderSummary data)
    details := renderDetails data
    log := p.log ++ [.rendered id data] }

/-- The callback, from the response on. -/
def arrived (id : Bytes) (data : Data) : Page :=
  if data.terminal then (p.renderResult id data).clearInterval (.response id data)
  else p.renderResult id data

def openProblem : Page :=
  if p.token then { p with fetches := p.fetches ++ [.problem] } else p.showAuth

def showHistory : Page :=
  if p.token then { p.showOnly .history with fetches := p.fetches ++ [.submissions] }
  else p.showAuth

def submitCode : Page :=
  if p.token then
    match p.currentProblem with
    | none => p
    | some _ => { p with submitting := true, fetches := p.fetches ++ [.submit] }
  else p.showAuth

/-- What follows the `await` of a fetch. -/
def settled : Fetch → Answer → Page
  | .auth, .session => { p with token := true }.hideAuth
  | .problem, .problem id => { p with currentProblem := some (some id) }.showEditor
  | .problem, .refused => { p with currentProblem := some none }.showEditor
  | .submit, .accepted id => { p.showResult.pollSubmission id with submitting := false }
  | .submit, _ => { p with submitting := false }
  | .submission id _, answer =>
    match answer.data? with
    | some data => p.arrived id data
    | none => p
  | _, _ => p

end Page

def step (p : Page) : Action → Option Page
  | .logout => some { p with token := false }.showProblems
  | .showAuth => some p.showAuth
  | .hideAuth => some p.hideAuth
  | .submitAuth => some { p with fetches := p.fetches ++ [.auth] }
  | .openProblem _ => some p.openProblem
  | .showHistory => some p.showHistory
  | .viewSubmission id => some (p.showResult.pollSubmission id)
  | .showProblems => some p.showProblems
  | .showEditor => some p.showEditor
  | .submitCode => if p.submitting then none else some p.submitCode
  | .tick timer => (p.intervals.find? (·.1 = timer)).map fun x =>
    { p with fetches := p.fetches ++ [.submission x.2 p.log.length] }
  | .settle i answer => p.fetches[i]?.map fun fetch =>
    { p with fetches := p.fetches.eraseIdx i }.settled fetch answer

/-! ### What is faithful -/

/-- The submission that `pollSubmission` was called for last. -/
def lastPolled (log : List Event) : Option Bytes :=
  log.foldl (fun last e => match e with | .polled id => some id | _ => last) none

/-- A final result has been rendered since then. -/
def concluded (log : List Event) : Bool :=
  log.foldl (fun was e => match e with
    | .polled _ => false
    | .rendered _ data => was || data.terminal
    | .cleared _ _ => was) false

/-- An event as it should be, behind others: a response is rendered that is for the
submission polled last, and is final if a final one has been rendered; an interval is
cleared by navigation, by another poll, or by a final response for its submission. -/
def Event.Right (before : List Event) : Event → Prop
  | .polled _ => True
  | .rendered id data =>
    lastPolled before = some id ∧ (concluded before = true → data.terminal = true)
  | .cleared id (.response id' data) => id' = id ∧ data.terminal = true
  | .cleared _ _ => True

def Faithful (log : List Event) : Prop :=
  ∀ before e after, log = before ++ e :: after → e.Right before

/-- No poll that is answered was overtaken: while it was on its way, no other submission was
polled in its place, and no final response has arrived that one without a final verdict
comes behind. -/
def Prompt (p : Page) (a : Action) : Prop :=
  ∀ i answer id sent data, a = .settle i answer → p.fetches[i]? = some (.submission id sent) →
    answer.data? = some data →
      (∀ id', lastPolled (p.log.drop sent) = some id' → id' = id) ∧
        (concluded (p.log.drop sent) = true → data.terminal = true)

def Action.Polls (p : Page) : Action → Prop
  | .tick _ => True
  | .viewSubmission _ => True
  | .settle i (.accepted _) => p.fetches[i]? = some .submit
  | _ => False

abbrev Reaches (token : Bool) (as : List Action) (p : Page) : Prop :=
  run step { token } as = some p

variable {p q p' : Page} {as : List Action}

theorem lastPolled_concat (log : List Event) (e : Event) :
    lastPolled (log ++ [e]) = (lastPolled [e]).or (lastPolled log) := by
  cases e <;> simp [lastPolled]

theorem concluded_concat (log : List Event) (e : Event) :
    concluded (log ++ [e]) = (concluded [e] || (concluded log && (lastPolled [e]).isNone)) := by
  cases e <;> simp [concluded, lastPolled, Bool.or_comm]

/-- **Who was polled last**, of two parts of a log. -/
theorem lastPolled_append (log log' : List Event) :
    lastPolled (log ++ log') = (lastPolled log').or (lastPolled log) := by
  induction log' using List.reverseRecOn with
  | nil => simp [lastPolled]
  | append_singleton log' e ih =>
    rw [← List.append_assoc, lastPolled_concat, ih, lastPolled_concat log', Option.or_assoc]

/-- **A final result counts** until another poll. -/
theorem concluded_append (log log' : List Event) :
    concluded (log ++ log') = (concluded log' || (concluded log && (lastPolled log').isNone)) := by
  induction log' using List.reverseRecOn with
  | nil => simp [concluded, lastPolled]
  | append_singleton log' e ih =>
    rw [← List.append_assoc, concluded_concat, ih, concluded_concat log', lastPolled_concat log']
    cases lastPolled [e] <;> cases concluded [e] <;> simp

theorem faithful_nil : Faithful [] := by
  intro before e after h
  simp at h

theorem faithful_concat {log : List Event} {e : Event} :
    Faithful (log ++ [e]) ↔ Faithful log ∧ e.Right log := by
  constructor
  · intro h
    refine ⟨fun before e' after heq => h before e' (after ++ [e]) (by simp [heq]), ?_⟩
    exact h log e [] rfl
  · rintro ⟨h, he⟩ before e' after heq
    rcases List.eq_nil_or_concat after with rfl | ⟨after, last, rfl⟩
    · obtain ⟨rfl, hlast⟩ := List.append_inj' heq rfl
      cases hlast
      exact he
    · rw [List.concat_eq_append, ← List.cons_append, ← List.append_assoc] at heq
      exact h before e' after (List.append_inj' heq rfl).1

theorem faithful_append {log es : List Event} (hes : ∀ e ∈ es, ∀ before, e.Right before) :
    Faithful (log ++ es) ↔ Faithful log := by
  induction es using List.reverseRecOn with
  | nil => rw [List.append_nil]
  | append_singleton es e ih =>
    have hlast := hes e (by simp) (log ++ es)
    have ih := ih fun e' he' => hes e' (List.mem_append_left _ he')
    rw [← List.append_assoc, faithful_concat, ih]
    exact and_iff_left hlast

theorem Faithful.of_append {log es : List Event} (h : Faithful (log ++ es)) : Faithful log := by
  intro before e after heq
  exact h before e (after ++ es) (by simp [heq])

/-! ### What a step can do -/

/-- Nothing has happened to the polling, and no poll has been sent. -/
structure Quiet (p q : Page) : Prop where
  log : q.log = p.log
  intervals : q.intervals = p.intervals
  pollTimer : q.pollTimer = p.pollTimer
  summary : q.summary = p.summary
  polls : q.polls.Sublist p.polls

namespace Quiet

theorem refl (p : Page) : Quiet p p := ⟨rfl, rfl, rfl, rfl, .refl _⟩

theorem trans {r : Page} (h : Quiet p q) (g : Quiet q r) : Quiet p r :=
  ⟨g.log.trans h.log, g.intervals.trans h.intervals, g.pollTimer.trans h.pollTimer,
    g.summary.trans h.summary, g.polls.trans h.polls⟩

theorem erase (p : Page) (i : Nat) : Quiet p { p with fetches := p.fetches.eraseIdx i } :=
  ⟨rfl, rfl, rfl, rfl, (List.eraseIdx_sublist p.fetches i).filterMap _⟩

end Quiet

/-- The user navigates, or a fetch other than a poll is sent. -/
theorem quiet_of_eq (hlog : q.log = p.log) (hintervals : q.intervals = p.intervals)
    (hpollTimer : q.pollTimer = p.pollTimer) (hsummary : q.summary = p.summary)
    (hpolls : q.polls = p.polls) : Quiet p q :=
  ⟨hlog, hintervals, hpollTimer, hsummary, hpolls ▸ .refl _⟩

theorem polls_send {fetches : List Fetch} {fetch : Fetch} (h : fetch.poll? = none) :
    (fetches ++ [fetch]).filterMap Fetch.poll? = fetches.filterMap Fetch.poll? := by
  simp [h]

theorem quiet_openProblem (p : Page) : Quiet p p.openProblem := by
  unfold Page.openProblem
  split
  · exact quiet_of_eq rfl rfl rfl rfl (polls_send rfl)
  · exact quiet_of_eq rfl rfl rfl rfl rfl

theorem quiet_showHistory (p : Page) : Quiet p p.showHistory := by
  unfold Page.showHistory
  split
  · exact quiet_of_eq rfl rfl rfl rfl (polls_send rfl)
  · exact quiet_of_eq rfl rfl rfl rfl rfl

theorem quiet_submitCode (p : Page) : Quiet p p.submitCode := by
  unfold Page.submitCode
  split
  · split
    · exact .refl p
    · exact quiet_of_eq rfl rfl rfl rfl (polls_send rfl)
  · exact quiet_of_eq rfl rfl rfl rfl rfl

/-- **What the end of a fetch can do**: nothing to the polling, or navigate, or poll; or it is
the response to a poll. -/
theorem settled_cases (p : Page) (fetch : Fetch) (answer : Answer) :
    ((fetch.poll? = none ∨ answer.data? = none) ∧
        (Quiet p (p.settled fetch answer) ∨
          (∃ q, Quiet p q ∧ p.settled fetch answer = q.clearInterval .navigation) ∨
            ∃ q id, fetch = .submit ∧ answer = .accepted id ∧ Quiet p q ∧
              Quiet (q.pollSubmission id) (p.settled fetch answer))) ∨
      ∃ id sent data, fetch = .submission id sent ∧ answer.data? = some data ∧
        p.settled fetch answer = p.arrived id data := by
  cases fetch with
  | auth =>
    refine .inl ⟨.inl rfl, .inl ?_⟩
    cases answer <;> exact quiet_of_eq rfl rfl rfl rfl rfl
  | problem =>
    refine .inl ⟨.inl rfl, ?_⟩
    cases answer with
    | problem id =>
      exact .inr (.inl ⟨Page.showOnly { p with currentProblem := some (some id) } .editor,
        quiet_of_eq rfl rfl rfl rfl rfl, rfl⟩)
    | refused =>
      exact .inr (.inl ⟨Page.showOnly { p with currentProblem := some none } .editor,
        quiet_of_eq rfl rfl rfl rfl rfl, rfl⟩)
    | _ => exact .inl (.refl p)
  | submissions =>
    refine .inl ⟨.inl rfl, .inl ?_⟩
    cases answer <;> exact .refl p
  | submit =>
    refine .inl ⟨.inl rfl, ?_⟩
    cases answer with
    | accepted id =>
      exact .inr (.inr ⟨p.showResult, id, rfl, rfl, quiet_of_eq rfl rfl rfl rfl rfl,
        quiet_of_eq rfl rfl rfl rfl rfl⟩)
    | _ => exact .inl (quiet_of_eq rfl rfl rfl rfl rfl)
  | submission id sent =>
    cases hdata : answer.data? with
    | none =>
      refine .inl ⟨.inr rfl, .inl ?_⟩
      simp only [Page.settled, hdata]
      exact .refl p
    | some data =>
      refine .inr ⟨id, sent, data, rfl, rfl, ?_⟩
      simp only [Page.settled, hdata]

theorem prompt_of_ne {a : Action} (h : ∀ i answer, a ≠ .settle i answer) : Prompt p a :=
  fun i answer _ _ _ ha => absurd ha (h i answer)

theorem step_cases {a : Action} (h : step p a = some p') :
    (Prompt p a ∧
      (Quiet p p' ∨ (∃ q, Quiet p q ∧ p' = q.clearInterval .navigation) ∨
        ∃ q id, a.Polls p ∧ Quiet p q ∧ Quiet (q.pollSubmission id) p')) ∨
    (Prompt p a ∧ a.Polls p ∧ ∃ x ∈ p.intervals,
      p' = { p with fetches := p.fetches ++ [.submission x.2 p.log.length] }) ∨
    ∃ i answer id sent data, a = .settle i answer ∧ p.fetches[i]? = some (.submission id sent) ∧
      answer.data? = some data ∧
        p' = Page.arrived { p with fetches := p.fetches.eraseIdx i } id data := by
  cases a with
  | logout =>
    cases h
    exact .inl ⟨prompt_of_ne (by simp),
      .inr (.inl ⟨Page.showOnly { p with token := false } .problems,
        quiet_of_eq rfl rfl rfl rfl rfl, rfl⟩)⟩
  | showAuth =>
    cases h
    exact .inl ⟨prompt_of_ne (by simp), .inl (quiet_of_eq rfl rfl rfl rfl rfl)⟩
  | hideAuth =>
    cases h
    exact .inl ⟨prompt_of_ne (by simp), .inl (quiet_of_eq rfl rfl rfl rfl rfl)⟩
  | submitAuth =>
    cases h
    exact .inl ⟨prompt_of_ne (by simp), .inl (quiet_of_eq rfl rfl rfl rfl (polls_send rfl))⟩
  | openProblem id =>
    cases h
    exact .inl ⟨prompt_of_ne (by simp), .inl (quiet_openProblem p)⟩
  | showHistory =>
    cases h
    exact .inl ⟨prompt_of_ne (by simp), .inl (quiet_showHistory p)⟩
  | viewSubmission id =>
    cases h
    exact .inl ⟨prompt_of_ne (by simp),
      .inr (.inr ⟨p.showResult, id, trivial, quiet_of_eq rfl rfl rfl rfl rfl, .refl _⟩)⟩
  | showProblems =>
    cases h
    exact .inl ⟨prompt_of_ne (by simp),
      .inr (.inl ⟨p.showOnly .problems, quiet_of_eq rfl rfl rfl rfl rfl, rfl⟩)⟩
  | showEditor =>
    cases h
    exact .inl ⟨prompt_of_ne (by simp),
      .inr (.inl ⟨p.showOnly .editor, quiet_of_eq rfl rfl rfl rfl rfl, rfl⟩)⟩
  | submitCode =>
    simp only [step] at h
    split at h
    · cases h
    · cases h
      exact .inl ⟨prompt_of_ne (by simp), .inl (quiet_submitCode p)⟩
  | tick timer =>
    obtain ⟨x, hx, rfl⟩ := Option.map_eq_some_iff.mp h
    exact .inr (.inl ⟨prompt_of_ne (by simp), trivial, x, List.mem_of_find?_eq_some hx, rfl⟩)
  | settle i answer =>
    obtain ⟨fetch, hfetch, rfl⟩ := Option.map_eq_some_iff.mp h
    have herase := Quiet.erase p i
    rcases settled_cases { p with fetches := p.fetches.eraseIdx i } fetch answer with
      ⟨hnone, hcases⟩ | ⟨id, sent, data, rfl, hdata, heq⟩
    · refine .inl ⟨?_, ?_⟩
      · rintro _ _ id sent data ⟨⟩ hpoll hdata
        cases hfetch.symm.trans hpoll
        rcases hnone with hnone | hnone
        · cases hnone
        · cases hnone.symm.trans hdata
      · rcases hcases with hq | ⟨q, hq, heq⟩ | ⟨q, id, rfl, rfl, hq, hq'⟩
        · exact .inl (herase.trans hq)
        · exact .inr (.inl ⟨q, herase.trans hq, heq⟩)
        · exact .inr (.inr ⟨q, id, hfetch, herase.trans hq, hq'⟩)
    · exact .inr (.inr ⟨i, answer, id, sent, data, rfl, hfetch, hdata, heq⟩)

/-! ### The interval and the polls on their way -/

/-- The interval that ticks is that of `pollTimer`; it asks for the submission polled last,
which has had no final result since.  So it was when the polls on their way were sent. -/
structure Sound (p : Page) : Prop where
  ticking : ∀ x ∈ p.intervals,
    p.pollTimer = some x.1 ∧ lastPolled p.log = some x.2 ∧ concluded p.log = false
  sent : ∀ x ∈ p.polls, x.2 ≤ p.log.length ∧ lastPolled (p.log.take x.2) = some x.1 ∧
    concluded (p.log.take x.2) = false

theorem clearInterval_eq (h : ∀ x ∈ p.intervals, p.pollTimer = some x.1) (cause : Cause) :
    p.clearInterval cause = { p with
      intervals := []
      log := p.log ++ p.intervals.map fun x => .cleared x.2 cause } := by
  unfold Page.clearInterval
  split
  · next hnone =>
    have hnil : p.intervals = [] := by
      refine List.eq_nil_iff_forall_not_mem.mpr fun x hx => ?_
      cases hnone.symm.trans (h x hx)
    rw [hnil, List.map_nil, List.append_nil, ← hnil]
  · next timer htimer =>
    have hall : ∀ x ∈ p.intervals, x.1 = timer := by
      intro x hx
      exact (Option.some.inj (htimer.symm.trans (h x hx))).symm
    have hothers : p.intervals.filter (·.1 ≠ timer) = [] :=
      List.filter_eq_nil_iff.mpr fun x hx => by simp [hall x hx]
    have hthese : p.intervals.filter (·.1 = timer) = p.intervals :=
      List.filter_eq_self.mpr fun x hx => by simp [hall x hx]
    rw [hothers, hthese]

theorem pollSubmission_eq (h : ∀ x ∈ p.intervals, p.pollTimer = some x.1) (id : Bytes) :
    p.pollSubmission id = { p with
      summary := .pending
      timers := p.timers + 1
      intervals := [(p.timers + 1, id)]
      pollTimer := some (p.timers + 1)
      log := p.log ++ (p.intervals.map (fun x => .cleared x.2 .poll) ++ [.polled id]) } := by
  have hpending : ∀ x ∈ ({ p with summary := .pending } : Page).intervals,
      ({ p with summary := .pending } : Page).pollTimer = some x.1 := h
  rw [Page.pollSubmission, clearInterval_eq hpending, Page.setInterval, ← List.append_assoc]
  rfl

theorem arrived_eq (h : ∀ x ∈ p.intervals, p.pollTimer = some x.1) (id : Bytes) (data : Data) :
    p.arrived id data = { p with
      summary := .result (renderSummary data)
      details := renderDetails data
      intervals := if data.terminal then [] else p.intervals
      log := p.log ++ [.rendered id data] ++
        if data.terminal then p.intervals.map fun x => .cleared x.2 (.response id data) else [] } := by
  have hrendered : ∀ x ∈ (p.renderResult id data).intervals,
      (p.renderResult id data).pollTimer = some x.1 := h
  unfold Page.arrived
  cases data.terminal with
  | true =>
    rw [if_pos rfl, clearInterval_eq hrendered]
    rfl
  | false =>
    rw [if_neg (by simp), if_neg (by simp), if_neg (by simp), List.append_nil]
    rfl

namespace Sound

theorem one (hp : Sound p) : ∀ x ∈ p.intervals, p.pollTimer = some x.1 := fun x hx =>
  (hp.ticking x hx).1

theorem quiet (hp : Sound p) (h : Quiet p q) : Sound q := by
  refine ⟨?_, fun x hx => ?_⟩
  · rw [h.log, h.intervals, h.pollTimer]
    exact hp.ticking
  · rw [h.log]
    exact hp.sent x (h.polls.subset hx)

theorem sent_append (hp : Sound p) {es : List Event} (hlog : q.log = p.log ++ es)
    (hpolls : q.polls = p.polls) : ∀ x ∈ q.polls, x.2 ≤ q.log.length ∧
      lastPolled (q.log.take x.2) = some x.1 ∧ concluded (q.log.take x.2) = false := by
  intro x hx
  rw [hpolls] at hx
  obtain ⟨hle, hlast, hopen⟩ := hp.sent x hx
  rw [hlog, List.take_append_of_le_length hle]
  exact ⟨by rw [List.length_append]; omega, hlast, hopen⟩

theorem clear (hp : Sound p) (cause : Cause) : Sound (p.clearInterval cause) := by
  rw [clearInterval_eq hp.one]
  exact ⟨by simp, hp.sent_append rfl rfl⟩

theorem poll (hp : Sound p) (id : Bytes) : Sound (p.pollSubmission id) := by
  rw [pollSubmission_eq hp.one]
  refine ⟨fun x hx => ?_, hp.sent_append rfl rfl⟩
  obtain rfl := List.mem_singleton.mp hx
  refine ⟨rfl, ?_, ?_⟩
  · rw [← List.append_assoc, lastPolled_concat]
    rfl
  · rw [← List.append_assoc, concluded_concat]
    exact Bool.and_false _

theorem tick (hp : Sound p) {x : Nat × Bytes} (hx : x ∈ p.intervals) :
    Sound { p with fetches := p.fetches ++ [.submission x.2 p.log.length] } := by
  obtain ⟨-, hlast, hopen⟩ := hp.ticking x hx
  refine ⟨hp.ticking, fun y hy => ?_⟩
  rw [Page.polls, List.filterMap_append] at hy
  rcases List.mem_append.mp hy with hy | hy
  · exact hp.sent y hy
  · obtain rfl : y = (x.2, p.log.length) := List.mem_singleton.mp hy
    show p.log.length ≤ p.log.length ∧ _
    rw [List.take_length]
    exact ⟨le_refl _, hlast, hopen⟩

/-- An interval that goes on has had no final result. -/
theorem arrived (hp : Sound p) (id : Bytes) (data : Data) : Sound (p.arrived id data) := by
  rw [arrived_eq hp.one]
  refine ⟨fun x hx => ?_, hp.sent_append (List.append_assoc ..) rfl⟩
  cases hfinal : data.terminal with
  | true =>
    rw [hfinal] at hx
    cases hx
  | false =>
    rw [hfinal] at hx
    obtain ⟨htimer, hlast, hbefore⟩ := hp.ticking x hx
    have hopen : concluded [Event.rendered id data] = false := by simp [concluded, hfinal]
    simp only [Bool.false_eq_true, if_false, List.append_nil]
    rw [lastPolled_concat, concluded_concat, hopen, hbefore]
    exact ⟨htimer, hlast, rfl⟩

end Sound

theorem sound_step {a : Action} (hp : Sound p) (h : step p a = some p') : Sound p' := by
  rcases step_cases h with ⟨-, hq | ⟨q, hq, rfl⟩ | ⟨q, id, -, hq, hq'⟩⟩ | ⟨-, -, x, hx, rfl⟩ |
    ⟨i, answer, id, sent, data, -, -, -, rfl⟩
  · exact hp.quiet hq
  · exact (hp.quiet hq).clear _
  · exact ((hp.quiet hq).poll id).quiet hq'
  · exact hp.tick hx
  · exact (hp.quiet (.erase p i)).arrived id data

/-! ### The log -/

theorem clearInterval_log (hp : Sound p) (cause : Cause) :
    (p.clearInterval cause).log = p.log ++ p.intervals.map fun x => .cleared x.2 cause := by
  rw [clearInterval_eq hp.one]

theorem pollSubmission_log (hp : Sound p) (id : Bytes) :
    (p.pollSubmission id).log =
      p.log ++ (p.intervals.map (fun x => .cleared x.2 .poll) ++ [.polled id]) := by
  rw [pollSubmission_eq hp.one]

theorem arrived_log (hp : Sound p) (id : Bytes) (data : Data) :
    (p.arrived id data).log = p.log ++ [.rendered id data] ++
      if data.terminal then p.intervals.map fun x => .cleared x.2 (.response id data) else [] := by
  rw [arrived_eq hp.one]

/-- **The response to a poll** is rendered as it should be exactly if it was not overtaken:
when the poll was sent, its submission was the one polled last, and had no final result. -/
theorem right_rendered_iff (hp : Sound p) {id : Bytes} {sent : Nat} {data : Data}
    (hsent : (id, sent) ∈ p.polls) :
    (Event.rendered id data).Right p.log ↔
      (∀ id', lastPolled (p.log.drop sent) = some id' → id' = id) ∧
        (concluded (p.log.drop sent) = true → data.terminal = true) := by
  obtain ⟨-, hlast, hopen⟩ := hp.sent (id, sent) hsent
  dsimp only at hlast hopen
  have hcut : p.log = p.log.take sent ++ p.log.drop sent := (List.take_append_drop sent p.log).symm
  have hpolled : lastPolled p.log = (lastPolled (p.log.drop sent)).or (some id) := by
    rw [hcut, lastPolled_append, hlast, ← hcut]
  have hconcluded : concluded p.log = concluded (p.log.drop sent) := by
    rw [hcut, concluded_append, hopen, ← hcut, Bool.false_and, Bool.or_false]
  show lastPolled p.log = some id ∧ _ ↔ _
  rw [hpolled, hconcluded]
  refine and_congr_left' ?_
  cases lastPolled (p.log.drop sent) with
  | none => simp
  | some id' => simp

/-- **A step stays faithful** exactly if what it answers was not overtaken. -/
theorem faithful_step {a : Action} (hp : Sound p) (h : step p a = some p') :
    Faithful p'.log ↔ Faithful p.log ∧ Prompt p a := by
  have hquiet : ∀ {es : List Event}, p'.log = p.log ++ es →
      (∀ e ∈ es, ∀ before, e.Right before) → Prompt p a →
        (Faithful p'.log ↔ Faithful p.log ∧ Prompt p a) := by
    intro es hlog hes hprompt
    rw [hlog, faithful_append hes]
    exact (and_iff_left hprompt).symm
  rcases step_cases h with ⟨hprompt, hq | ⟨q, hq, rfl⟩ | ⟨q, id, -, hq, hq'⟩⟩ |
    ⟨hprompt, -, x, hx, rfl⟩ | ⟨i, answer, id, sent, data, rfl, hfetch, hdata, rfl⟩
  · exact hquiet (by rw [hq.log, List.append_nil]) (by simp) hprompt
  · refine hquiet (by rw [clearInterval_log (hp.quiet hq), hq.log]) ?_ hprompt
    intro e he before
    obtain ⟨x, -, rfl⟩ := List.mem_map.mp he
    trivial
  · refine hquiet (by rw [hq'.log, pollSubmission_log (hp.quiet hq), hq.log]) ?_ hprompt
    intro e he before
    rcases List.mem_append.mp he with he | he
    · obtain ⟨x, -, rfl⟩ := List.mem_map.mp he
      trivial
    · rw [List.mem_singleton.mp he]
      trivial
  · exact hquiet (List.append_nil _).symm (by simp) hprompt
  · have hsent : (id, sent) ∈ p.polls :=
      List.mem_filterMap.mpr ⟨_, List.mem_of_getElem? hfetch, rfl⟩
    have hright := @right_rendered_iff p hp id sent data hsent
    rw [arrived_log (hp.quiet (.erase p i))]
    constructor
    · intro hafter
      obtain ⟨hbefore, hrendered⟩ := faithful_concat.mp hafter.of_append
      refine ⟨hbefore, ?_⟩
      rintro j answer' id' sent' data' ⟨⟩ hfetch' hdata'
      cases hfetch.symm.trans hfetch'
      cases hdata.symm.trans hdata'
      exact hright.mp hrendered
    · rintro ⟨hfaithful, hprompt⟩
      have hrendered := hright.mpr (hprompt i answer id sent data rfl hfetch hdata)
      refine (faithful_append fun e he before => ?_).mpr
        (faithful_concat.mpr ⟨hfaithful, hrendered⟩)
      split at he
      · next hfinal =>
        obtain ⟨x, hx, rfl⟩ := List.mem_map.mp he
        obtain ⟨-, hlast, -⟩ := hp.ticking x hx
        exact ⟨Option.some.inj (hrendered.1.symm.trans hlast), hfinal⟩
      · cases he

theorem sound_initial (token : Bool) : Sound { token } := ⟨by simp, by simp [Page.polls]⟩

/-- **What the page shows of the submission polled last** is right in a run if and only if no
poll that was answered had been overtaken. -/
theorem faithful_iff_prompt {token : Bool} (hrun : Reaches token as p) :
    Faithful p.log ↔ AllSteps step Prompt { token } as := by
  have hall : Faithful p.log ↔ Faithful [] ∧ AllSteps step Prompt { token } as :=
    run_iff_allSteps Sound (fun p => Faithful p.log) hrun (sound_initial token)
      (fun _ _ _ hp h => sound_step hp h) fun _ _ _ hp h => faithful_step hp h
  exact hall.trans (and_iff_right faithful_nil)

/-! ### A late answer -/

/-- The user looks at submission `a` and then at `b`, and the answer for `a` comes after that;
`a` has been accepted, `b` has not been judged yet. -/
def twoViews : List Action :=
  [.showHistory, .settle 0 .submissions, .viewSubmission "a", .tick 1, .showHistory,
    .settle 1 .submissions, .viewSubmission "b",
    .settle 0 (.submission { verdict := some "ACCEPTED" })]

/-- **The page shows the verdict of another submission**, and polls no more: the answer for `a`
has cleared the interval of `b`. -/
theorem overtaken_answer :
    ∃ p, Reaches true twoViews p ∧ lastPolled p.log = some "b" ∧
      p.summary = .result (renderSummary { verdict := some "ACCEPTED" }) ∧
      Event.rendered "a" { verdict := some "ACCEPTED" } ∈ p.log ∧
      Event.cleared "b" (.response "a" { verdict := some "ACCEPTED" }) ∈ p.log ∧
      p.intervals = [] ∧ ¬ Faithful p.log := by
  refine ⟨_, rfl, rfl, rfl, ?_, ?_, rfl, fun h => ?_⟩
  · decide
  · decide
  · have hright := h [.polled "a", .cleared "a" .poll, .polled "b"]
      (.rendered "a" { verdict := some "ACCEPTED" }) _ rfl
    exact absurd hright.1 (by decide)

/-- The user looks at a submission until its result is there. -/
def oneView : List Action :=
  [.viewSubmission "a", .tick 1, .settle 0 (.submission { verdict := some "ACCEPTED" })]

theorem faithful_iff_prompt_oneView : ∃ p, Reaches true oneView p ∧ Faithful p.log := by
  obtain ⟨p, hrun⟩ : ∃ p, Reaches true oneView p := ⟨_, rfl⟩
  refine ⟨p, hrun, (faithful_iff_prompt hrun).mpr ?_⟩
  refine allSteps_cons rfl (prompt_of_ne (by simp)) ?_
  refine allSteps_cons rfl (prompt_of_ne (by simp)) ?_
  refine allSteps_cons rfl ?_ trivial
  rintro i answer id sent data ⟨⟩ hfetch hdata
  cases hfetch
  cases hdata
  refine ⟨fun _ h => ?_, fun _ => rfl⟩
  cases h

end Ocpe.Web
