import Mathlib.Data.Finset.Card
import Ocpe.Lib.Protocol
import Ocpe.Lib.Window
import Ocpe.System.Listing

/-!
# The list of a user's submissions

`record_submission` pushes an id to the list of the user and then trims the list to 100:
two commands, between which any others may do the same.

* `store_listWindow`: in every state of every run, whatever Redis faults and crashes it has
  seen, the list is what the executed pushes and trims of the log make of it.
* `mem_owing_iff`: where Redis answers, whoever owes a trim stands at its `LTRIM`.
* `userSubmissions_window`: the list has the newest ids, and `get_user_submissions` returns
  as many of them as were asked for.
-/

namespace Ocpe.System

open Lib Redis RedisClient AuthService

variable {cfg : Config} {s s' : Sys cfg}

/-- What an operation does to the list under the key. -/
def listMove? {C : Type} (key : Bytes) (who : C) : Wire → Option (Move C Bytes)
  | .command (.lpush k id) => if k = key then some (.push who id) else none
  | .command (.ltrim k _ _) => if k = key then some (.trim who) else none
  | _ => none

/-- What an event has done to the list: the server has executed the command, whether or not
the reply arrived. -/
def Event.listMove? (key : Bytes) : Event → Option (Move Party Bytes)
  | .wire who _ op (some _) _ => System.listMove? key who op
  | _ => none

/-- The list under the key as the log tells it. -/
def listWindow (key : Bytes) (log : List Event) : Window Party Bytes :=
  .replay 100 (log.filterMap (Event.listMove? key))

theorem listWindow_concat_none {key : Bytes} {log : List Event} {e : Event}
    (he : e.listMove? key = none) : listWindow key (log ++ [e]) = listWindow key log := by
  simp [listWindow, he]

theorem listWindow_concat_some {key : Bytes} {log : List Event} {e : Event}
    {m : Move Party Bytes} (he : e.listMove? key = some m) :
    listWindow key (log ++ [e]) = (listWindow key log).move 100 m := by
  have hmap : (log ++ [e]).filterMap (Event.listMove? key) =
      log.filterMap (Event.listMove? key) ++ [m] := by simp [he]
  rw [listWindow, hmap, Window.replay_concat]
  rfl

theorem listMove?_of_writes {C : Type} {key : Bytes} {who : C} {op : Wire} (h : op.writes ≠ some key) :
    listMove? key who op = none := by
  unfold listMove?
  split
  · exact if_neg fun hk => h (congrArg some hk)
  · exact if_neg fun hk => h (congrArg some hk)
  · rfl

/-! ### The list at the server -/

section Exec

variable {now : Nat} {store : Store} {key : Bytes} {l : List Bytes}

theorem live_listEntry (h : store key = listEntry l) :
    store.live now key = if l = [] then none else some (.list l) := by
  unfold listEntry at h
  split
  · next hnil =>
    rw [if_pos hnil] at h
    rw [Store.live, h]
    rfl
  · next hne =>
    rw [if_neg hne] at h
    exact Store.live_forever h

theorem exec_lpush_listEntry (h : store key = listEntry l) (x : Bytes) :
    (exec now store (.lpush key x)).1 key = listEntry (x :: l) := by
  have hlive := @live_listEntry now store key l h
  simp only [exec, hlive]
  by_cases hnil : l = []
  · rw [if_pos hnil, hnil]
    exact Store.put_self ..
  · rw [if_neg hnil]
    exact Store.put_self ..

theorem range_first (l : List Bytes) {n : Int} (hn : 1 ≤ n) :
    range l 0 (n - 1) = l.take n.toNat := by
  have hstop : ¬ n - 1 < 0 := by omega
  have hcount : n - 1 + 1 = n := by omega
  simp [range, hstop, hcount]

theorem exec_ltrim_listEntry (h : store key = listEntry l) :
    (exec now store (.ltrim key 0 99)).1 key = listEntry (l.take 100) := by
  have hlive := @live_listEntry now store key l h
  simp only [exec, hlive]
  by_cases hnil : l = []
  · rw [if_pos hnil, hnil]
    rw [hnil] at h
    exact h
  · rw [if_neg hnil]
    have hrange : range l 0 99 = l.take 100 := @range_first l 100 (by omega)
    show store.put key (listEntry (range l 0 99)) key = _
    rw [hrange, Store.put_self]

/-- **The newest of the list**, when nobody else is at work. -/
theorem getUserSubmissions_listEntry {u : Bytes} (h : store (userSubsKey u) = listEntry l)
    {limit : Int} (hlimit : 1 ≤ limit) :
    Talk.direct now store (getUserSubmissions u limit) = (store, .ok (l.take limit.toNat)) := by
  show Talk.direct now store (execCommand (.lrange (userSubsKey u) 0 (limit - 1)) >>= _) = _
  have hlive := @live_listEntry now store (userSubsKey u) l h
  rw [direct_execCommand]
  simp only [exec, hlive]
  by_cases hnil : l = []
  · rw [if_pos hnil, hnil, List.take_nil]
    rfl
  · rw [if_neg hnil]
    show _ = (store, Except.ok (l.take limit.toNat))
    rw [← range_first l hlimit]
    rfl

end Exec

theorem sends_userSubsKey {who : Party} {c : Cmd} {u : Bytes} (h : Sends s who (.command c))
    (hwrites : c.writes = some (userSubsKey u)) :
    ∃ r h, who = .handler r ∧ s.requests r = some h ∧
      (c = .lpush (userSubsKey u) h.env.submissionId.text ∨ c = .ltrim (userSubsKey u) 0 99) := by
  generalize hkey : userSubsKey u = key at hwrites
  have htake : key.take 10 = bytes "ocpe:user_" := hkey ▸ take_userSubsKey u
  generalize hop : Wire.command c = op at h
  cases who with
  | handler r =>
    obtain ⟨h, hr, hsends⟩ := h
    cases hsends with
    | setUser =>
      cases hop
      cases hwrites
      exact absurd rfl (ne_of_take htake (take_userKey _) (by decide))
    | setToken =>
      cases hop
      cases hwrites
      exact absurd rfl (ne_of_take htake (take_tokenKey _) (by decide))
    | setPending =>
      cases hop
      cases hwrites
      exact absurd rfl (ne_of_take htake (take_statusKey _) (by decide))
    | pushJob =>
      cases hop
      cases hwrites
      exact absurd rfl (ne_of_take htake take_queueKey (by decide))
    | pushHistory =>
      cases hop
      cases hwrites
      exact ⟨r, h, rfl, hr, .inl rfl⟩
    | trimHistory =>
      cases hop
      cases hwrites
      exact ⟨r, h, rfl, hr, .inr rfl⟩
    | _ => cases hop <;> cases hwrites
  | worker w =>
    cases h with
    | popJob =>
      cases hop
      cases hwrites
      exact absurd rfl (ne_of_take htake take_queueKey (by decide))
    | setStatus =>
      cases hop
      cases hwrites
      exact absurd rfl (ne_of_take htake (take_statusKey _) (by decide))
    | setResult =>
      cases hop
      cases hwrites
      exact absurd rfl (ne_of_take htake (take_resultKey _) (by decide))
    | connect => cases hop

/-- **The list of a user** is what the executed commands make of it. -/
theorem store_listWindow {as : List Action} (hrun : Reaches cfg as s) (u : Bytes) :
    s.store (userSubsKey u) = listEntry (listWindow (userSubsKey u) s.log).kept := by
  refine run_invariant (fun s : Sys cfg =>
    s.store (userSubsKey u) = listEntry (listWindow (userSubsKey u) s.log).kept) hrun rfl ?_
  intro m a m' hm hstep
  rcases step_cases hstep with ⟨who, net, op, rfl, hop, rfl⟩ | hquiet
  · rw [perform_log]
    have hsame : (m.perform who op net).store (userSubsKey u) = m.store (userSubsKey u) →
        (m.event who op net).listMove? (userSubsKey u) = none →
        (m.perform who op net).store (userSubsKey u) =
          listEntry (listWindow (userSubsKey u) (m.log ++ [m.event who op net])).kept := by
      intro hstore hnone
      rw [listWindow_concat_none hnone, hstore, hm]
    cases hreply : m.serverReply who op net with
    | none =>
      apply hsame
      · rw [perform_store_of_not_executed hreply]
      · rw [Sys.event, hreply]
        rfl
    | some reply =>
      have hmove : (m.event who op net).listMove? (userSubsKey u) =
          listMove? (userSubsKey u) who op := by
        rw [Sys.event, hreply]
        rfl
      by_cases hwrites : op.writes = some (userSubsKey u)
      · cases op with
        | connect => cases hwrites
        | command c =>
          rw [(perform_store_of_executed hreply).1]
          obtain ⟨r, h, -, -, rfl | rfl⟩ := sends_userSubsKey (sends_of_op? hop) hwrites
          · rw [listWindow_concat_some (hmove.trans (if_pos rfl))]
            exact exec_lpush_listEntry hm _
          · rw [listWindow_concat_some (hmove.trans (if_pos rfl))]
            exact exec_ltrim_listEntry hm
      · apply hsame
        · exact exchange_frame hwrites
        · rw [hmove, listMove?_of_writes hwrites]
  · rw [hquiet.store, hm]
    rcases hquiet.log with heq | ⟨e, heq, hcloses⟩
    · rw [heq]
    · rw [heq, listWindow_concat_none]
      cases e with
      | wire => exact hcloses.elim
      | _ => rfl

/-! ### Where a handler stands with the list -/

/-- A call of `record_submission`, as far as it has got. -/
inductive Recording
  | unrecorded
  | pushed
  | trimmed
  deriving DecidableEq, Repr

/-- A handler pushes to the list once at most, and trims it right after that and at no other
time; so it does where every command is replied to. -/
def recording (key : Bytes) : Protocol Wire Answer Recording where
  may stage op :=
    (stage = .pushed ↔ op = .command (.ltrim key 0 99)) ∧
      ∀ id, op = .command (.lpush key id) → stage = .unrecorded
  next stage op :=
    match listMove? key () op with
    | some (.push _ _) => .pushed
    | some (.trim _) => .trimmed
    | none => stage
  heard op a := ∀ c, op = .command c → ∃ r, a = .reply r

section Conforms

variable {key : Bytes} {stage : Recording} {α : Type}

theorem recording_next_of_writes {op : Wire} (h : op.writes ≠ some key) :
    (recording key).next stage op = stage := by
  simp only [recording, listMove?_of_writes h]

/-- What leaves the list alone may be done at any time but between the two commands. -/
theorem conforms_of_writes {p : Talk α} (hstage : stage ≠ .pushed)
    (h : p.Issues fun op => op.writes ≠ some key) :
    (recording key).Conforms (· = stage) stage p := by
  refine Protocol.conforms_of_issues (h.mono fun op hop => ⟨⟨?_, ?_⟩, ?_⟩) rfl
  · refine iff_of_false hstage ?_
    rintro rfl
    exact hop rfl
  · rintro id rfl
    exact absurd rfl hop
  · exact recording_next_of_writes hop

theorem conforms_of_reads {p : Talk α} (hstage : stage ≠ .pushed)
    (h : p.Issues fun op => op.writes = none) :
    (recording key).Conforms (· = stage) stage p :=
  conforms_of_writes hstage (h.mono fun op hop => by rw [hop]; exact fun he => nomatch he)

theorem conforms_execCommand {Q : Recording → Prop} {c : Cmd} {f : Option Reply → Talk α}
    (hmay : (recording key).may stage (.command c))
    (hf : ∀ r, (recording key).Conforms Q ((recording key).next stage (.command c)) (f (some r))) :
    (recording key).Conforms Q stage (execCommand c >>= f) := by
  refine ⟨hmay, fun a ha => ?_⟩
  obtain ⟨r, rfl⟩ := ha c rfl
  exact hf r

theorem conforms_succeeds {Q : Recording → Prop} {c : Cmd} {f : Bool → Talk α}
    (hmay : (recording key).may stage (.command c))
    (hf : ∀ b, (recording key).Conforms Q ((recording key).next stage (.command c)) (f b)) :
    (recording key).Conforms Q stage (succeeds c >>= f) := by
  refine ⟨hmay, fun a ha => ?_⟩
  obtain ⟨r, rfl⟩ := ha c rfl
  exact hf (notError r)

/-- **`record_submission`** pushes and trims. -/
theorem recordSubmission_conforms (username id : Bytes) :
    (recording key).Conforms (· ≠ .pushed) .unrecorded (recordSubmission username id) := by
  by_cases hkey : userSubsKey username = key
  · subst hkey
    have hpush : (recording (userSubsKey username)).next .unrecorded
        (.command (.lpush (userSubsKey username) id)) = .pushed := by
      simp [recording, listMove?]
    have htrim : (recording (userSubsKey username)).next .pushed
        (.command (.ltrim (userSubsKey username) 0 99)) = .trimmed := by
      simp [recording, listMove?]
    refine conforms_execCommand ⟨by simp, fun _ _ => rfl⟩ fun r => ?_
    change (recording (userSubsKey username)).Conforms _ ((recording (userSubsKey username)).next
      .unrecorded (.command (.lpush (userSubsKey username) id))) _
    rw [hpush]
    refine conforms_succeeds ⟨iff_of_true rfl rfl, fun _ h => nomatch h⟩ fun b => ?_
    change (recording (userSubsKey username)).Conforms _ ((recording (userSubsKey username)).next
      .pushed (.command (.ltrim (userSubsKey username) 0 99))) _
    rw [htrim]
    exact fun h => nomatch h
  · have hother : some (userSubsKey username) ≠ some key := fun h => hkey (Option.some.inj h)
    have hissues : (recordSubmission username id).Issues fun op => op.writes ≠ some key := by
      refine Prog.issues_bind (execCommand_issues hother fun h => nomatch h) fun r => ?_
      split
      · trivial
      · exact Prog.issues_bind (succeeds_issues hother fun h => nomatch h) fun _ => trivial
    have hstage : Recording.unrecorded ≠ .pushed := by decide
    refine (conforms_of_writes hstage hissues).mono ?_
    rintro _ rfl
    exact hstage

/-- **The end of a submission** conforms. -/
theorem enqueueSubmission_conforms (u : Bytes) (job : SubmissionJob) :
    (recording (userSubsKey u)).Conforms (· ≠ .pushed) .unrecorded
      (ApiServer.enqueueSubmission cfg job) := by
  have hqueue : some queueKey ≠ some (userSubsKey u) := fun h =>
    ne_of_take take_queueKey (take_userSubsKey u) (by decide) (Option.some.inj h)
  have hstatus : some (statusKey job.submissionId) ≠ some (userSubsKey u) := fun h =>
    ne_of_take (take_statusKey _) (take_userSubsKey u) (by decide) (Option.some.inj h)
  have hpushJob : (enqueueJob cfg.format job).Issues fun op => op.writes ≠ some (userSubsKey u) :=
    Prog.issues_bind (json_issues _) fun _ => succeeds_issues hqueue fun h => nomatch h
  have hunrecorded : ∀ stage, stage = Recording.unrecorded → stage ≠ .pushed := by
    rintro _ rfl h
    cases h
  refine Protocol.conforms_bind (conforms_of_writes (fun h => nomatch h) hpushJob) hunrecorded ?_
  rintro ok _ rfl
  cases ok with
  | false => exact fun h => nomatch h
  | true =>
    have hsetStatus : (setStatus job.submissionId .pending).Issues
        fun op => op.writes ≠ some (userSubsKey u) := succeeds_issues hstatus fun h => nomatch h
    refine Protocol.conforms_bind (conforms_of_writes (fun h => nomatch h) hsetStatus)
      hunrecorded ?_
    rintro _ _ rfl
    refine Protocol.conforms_bind (recordSubmission_conforms _ _) (fun _ h => h) ?_
    intro _ stage hstage
    refine (conforms_of_reads hstage ?_).mono fun _ h => h ▸ hstage
    exact Prog.issues_bind queueLength_reads fun _ => respond_reads _ _

theorem login_writes (token : HexString 64) (username password u : Bytes) :
    (login cfg.sha256 token username password).Issues fun op =>
      op.writes ≠ some (userSubsKey u) := by
  have htoken : some (tokenKey token.text) ≠ some (userSubsKey u) := fun h =>
    ne_of_take (take_tokenKey _) (take_userSubsKey u) (by decide) (Option.some.inj h)
  refine Prog.issues_bind (execCommand_issues (fun h => nomatch h) fun h => nomatch h) fun r => ?_
  split
  · trivial
  · trivial
  · split
    · refine Prog.issues_bind (succeeds_issues htoken fun h => nomatch h) fun ok => ?_
      split <;> trivial
    · trivial

theorem registerUser_writes (salt : HexString 32) (username password u : Bytes) :
    (registerUser cfg.sha256 salt username password).Issues fun op =>
      op.writes ≠ some (userSubsKey u) := by
  have huser : some (userKey username) ≠ some (userSubsKey u) := fun h =>
    ne_of_take (take_userKey _) (take_userSubsKey u) (by decide) (Option.some.inj h)
  unfold registerUser
  split
  · trivial
  · refine Prog.issues_bind (execCommand_issues (fun h => nomatch h) fun h => nomatch h)
      fun r => ?_
    split
    · refine Prog.issues_bind (succeeds_issues huser fun h => nomatch h) fun ok => ?_
      split <;> trivial
    · refine Prog.issues_bind (succeeds_issues huser fun h => nomatch h) fun ok => ?_
      split <;> trivial
    · trivial

theorem accounts_writes {env : Surroundings} {request : Request} (h : request.OfAccounts)
    (u : Bytes) :
    (ApiServer.handle cfg env request).Issues fun op => op.writes ≠ some (userSubsKey u) := by
  have hrespond : ∀ status j, (ApiServer.respond cfg status j).Issues
      fun op => op.writes ≠ some (userSubsKey u) := fun _ _ =>
    Prog.issues_bind (json_issues _) fun _ => trivial
  cases request with
  | register body =>
    show (ApiServer.postRegister cfg env body).Issues _
    unfold ApiServer.postRegister
    split
    · trivial
    · refine Prog.issues_bind (json_issues _) fun username =>
        Prog.issues_bind (json_issues _) fun password =>
          Prog.issues_bind (registerUser_writes _ _ _ u) fun r => ?_
      split
      · exact hrespond _ _
      · refine Prog.issues_bind (login_writes _ _ _ u) fun session => ?_
        split
        · trivial
        · exact hrespond _ _
  | login body =>
    show (ApiServer.postLogin cfg env body).Issues _
    unfold ApiServer.postLogin
    split
    · trivial
    · refine Prog.issues_bind (json_issues _) fun username =>
        Prog.issues_bind (json_issues _) fun password =>
          Prog.issues_bind (login_writes _ _ _ u) fun session => ?_
      split
      · trivial
      · exact hrespond _ _
  | _ => exact h.elim

theorem handle_conforms (u : Bytes) (env : Surroundings) (request : Request) :
    (recording (userSubsKey u)).Conforms (· ≠ .pushed) .unrecorded
      (ApiServer.handle cfg env request) := by
  have hstage : Recording.unrecorded ≠ .pushed := by decide
  have hsame : ∀ stage, stage = Recording.unrecorded → stage ≠ .pushed := fun _ h => h ▸ hstage
  have hreads : (ApiServer.handle cfg env request).Issues (fun op => op.writes = none) →
      (recording (userSubsKey u)).Conforms (· ≠ .pushed) .unrecorded
        (ApiServer.handle cfg env request) := fun h =>
    (conforms_of_reads hstage h).mono hsame
  cases request with
  | register body =>
    have haccounts : Request.OfAccounts (.register body) := trivial
    exact (conforms_of_writes hstage (accounts_writes haccounts u)).mono hsame
  | login body =>
    have haccounts : Request.OfAccounts (.login body) := trivial
    exact (conforms_of_writes hstage (accounts_writes haccounts u)).mono hsame
  | me authorization => exact hreads (getMe_reads authorization)
  | submissions authorization => exact hreads (getSubmissions_reads authorization)
  | submission authorization id => exact hreads (getSubmission_reads authorization id)
  | stats => exact hreads getStats_reads
  | submit authorization body =>
    refine Protocol.conforms_bind (conforms_of_reads hstage (requireAuth_reads authorization))
      hsame ?_
    rintro r _ rfl
    cases r with
    | error response => exact hstage
    | ok username =>
      have haccept : (recording (userSubsKey u)).Conforms (· = .unrecorded) .unrecorded
          (Prog.ofExcept (ApiServer.acceptSubmission cfg env username body) : Talk _) :=
        Protocol.conforms_ofExcept _ rfl
      refine Protocol.conforms_bind haccept hsame ?_
      rintro accepted _ rfl
      cases accepted with
      | error response => exact hstage
      | ok job => exact enqueueSubmission_conforms u job

end Conforms

/-! ### The calls between their commands -/

/-- Where the party stands, as the log tells it. -/
def stands (key : Bytes) (who : Party) (log : List Event) : Recording :=
  (recording key).after .unrecorded (ownTrace who log)

theorem listMove?_cases (key : Bytes) (op : Wire) :
    (∀ {C : Type} (who : C), listMove? key who op = none) ∨
      (∃ id, op = .command (.lpush key id)) ∨
        ∃ start stop, op = .command (.ltrim key start stop) := by
  cases op with
  | connect => exact .inl fun _ => rfl
  | command c =>
    cases c with
    | lpush k id =>
      by_cases hk : k = key
      · exact .inr (.inl ⟨id, by rw [hk]⟩)
      · exact .inl fun _ => if_neg hk
    | ltrim k start stop =>
      by_cases hk : k = key
      · exact .inr (.inr ⟨start, stop, by rw [hk]⟩)
      · exact .inl fun _ => if_neg hk
    | _ => exact .inl fun _ => rfl

theorem untouched_of_unrecorded {key : Bytes} {t : List (Wire × Answer)}
    (h : (recording key).after .unrecorded t = .unrecorded) :
    ∀ x ∈ t, listMove? key () x.1 = none := by
  induction t using List.reverseRecOn with
  | nil => simp
  | append_singleton t x ih =>
    rw [Protocol.after_append] at h
    change (recording key).next ((recording key).after .unrecorded t) x.1 = .unrecorded at h
    have hlast : listMove? key () x.1 = none := by
      cases hmove : listMove? key () x.1 with
      | none => rfl
      | some m =>
        simp only [recording, hmove] at h
        cases m <;> cases h
    simp only [recording, hlast] at h
    intro y hy
    rcases List.mem_append.mp hy with hy | hy
    · exact ih h y hy
    · rw [List.mem_singleton.mp hy, hlast]

theorem mem_moves_push {key id : Bytes} {who : Party} {log : List Event}
    (h : .push who id ∈ log.filterMap (Event.listMove? key)) :
    ∃ now reply answer,
      Event.wire who now (.command (.lpush key id)) (some reply) answer ∈ log := by
  obtain ⟨e, he, hmove⟩ := List.mem_filterMap.mp h
  unfold Event.listMove? at hmove
  split at hmove
  · next who' now op reply answer =>
    rcases listMove?_cases key op with hnone | ⟨id', rfl⟩ | ⟨start, stop, rfl⟩
    · cases (hnone who').symm.trans hmove
    · rw [listMove?, if_pos rfl] at hmove
      cases hmove
      exact ⟨now, reply, answer, he⟩
    · rw [listMove?, if_pos rfl] at hmove
      cases hmove
  · cases hmove

/-- **The rule for the list**: what a push keeps, wherever it stands in the log, and every trim
keeps, holds of the list. -/
theorem listWindow_induction {key : Bytes} {log : List Event} (P : Window Party Bytes → Prop)
    (hstart : P {})
    (hpush : ∀ pre post who now id reply answer,
      log = pre ++ .wire who now (.command (.lpush key id)) (some reply) answer :: post →
        P (listWindow key pre) → P ((listWindow key pre).move 100 (.push who id)))
    (htrim : ∀ w who, P w → P (w.move 100 (.trim who))) : P (listWindow key log) := by
  suffices hparts : ∀ pre post, log = pre ++ post → P (listWindow key pre) by
    exact hparts log [] (List.append_nil log).symm
  intro pre
  induction pre using List.reverseRecOn with
  | nil => exact fun _ _ => hstart
  | append_singleton pre e ih =>
    intro post hlog
    rw [List.append_assoc] at hlog
    have ih := ih _ hlog
    cases hmove : e.listMove? key with
    | none => rwa [listWindow_concat_none hmove]
    | some move =>
      rw [listWindow_concat_some hmove]
      cases move with
      | push who id =>
        obtain ⟨now, reply, answer, he⟩ := @mem_moves_push key id who [e] (by simp [hmove])
        obtain rfl := List.mem_singleton.mp he
        exact hpush pre post who now id reply answer hlog ih
      | trim who => exact htrim _ who ih

theorem stands_concat (key : Bytes) (who : Party) (log : List Event) (e : Event) :
    stands key who (log ++ [e]) = (recording key).after (stands key who log) (ownTrace who [e]) := by
  rw [stands, ownTrace_append, Protocol.after_append]
  rfl

/-- **Whoever owes a trim** is past its push. -/
theorem mem_owing_iff_stands {key : Bytes} {who : Party} {log : List Event}
    (hlog : ∀ e ∈ log, e.Answered) :
    who ∈ (listWindow key log).owing ↔ stands key who log = .pushed := by
  induction log using List.reverseRecOn with
  | nil => simp [listWindow, Window.replay, stands, ownTrace]
  | append_singleton log e ih =>
    have ih := ih fun e' he' => hlog e' (List.mem_append_left _ he')
    have he : e.Answered := hlog e (by simp)
    rw [stands_concat]
    cases e with
    | wire who' now op executed answer =>
      have hown : who' ≠ who → ownTrace who [.wire who' now op executed answer] = [] := by
        intro hne
        simp [ownTrace, hne]
      rcases listMove?_cases key op with hnone | ⟨id, rfl⟩ | ⟨start, stop, rfl⟩
      · have hmove : (Event.wire who' now op executed answer).listMove? key = none := by
          cases executed with
          | none => rfl
          | some r => exact hnone who'
        rw [listWindow_concat_none hmove, ih]
        by_cases hwho : who' = who
        · simp [ownTrace, hwho, recording, hnone ()]
        · rw [hown hwho, Protocol.after_nil]
      · obtain ⟨r, rfl, -⟩ := he
        have hmove : (Event.wire who' now (.command (.lpush key id)) (some r) answer).listMove? key =
            some (.push who' id) := if_pos rfl
        rw [listWindow_concat_some hmove]
        show who ∈ who' :: _ ↔ _
        rw [List.mem_cons, ih]
        by_cases hwho : who' = who
        · simp [ownTrace, hwho, recording, listMove?]
        · rw [hown hwho, Protocol.after_nil]
          exact or_iff_right (Ne.symm hwho)
      · obtain ⟨r, rfl, -⟩ := he
        have hmove : (Event.wire who' now (.command (.ltrim key start stop)) (some r)
            answer).listMove? key = some (.trim who') := if_pos rfl
        rw [listWindow_concat_some hmove]
        show who ∈ (listWindow key log).owing.filter (· ≠ who') ↔ _
        rw [List.mem_filter, ih]
        by_cases hwho : who' = who
        · simp [ownTrace, hwho, recording, listMove?]
        · rw [hown hwho, Protocol.after_nil]
          simp [Ne.symm hwho]
    | _ =>
      rw [listWindow_concat_none rfl, ih]
      rfl

section Served

variable {as : List Action} (hrun : Reaches cfg as s) (hserved : ∀ a ∈ as, a.Served)

include hrun hserved

theorem stands_conforms {r : Nat} {h : Handling cfg} (hr : s.requests r = some h) (u : Bytes) :
    (recording (userSubsKey u)).Conforms (· ≠ .pushed)
      (stands (userSubsKey u) (.handler r) s.log) h.task.rest := by
  rw [stands, ← task_trace hrun hr]
  exact (handle_conforms u h.env h.request).of_path h.path (handler_replied hrun hserved hr)

/-- **The calls that owe a trim** are those that stand at their `LTRIM`. -/
theorem mem_owing_iff {who : Party} {u : Bytes} :
    who ∈ (listWindow (userSubsKey u) s.log).owing ↔
      s.op? who = some (.command (.ltrim (userSubsKey u) 0 99)) := by
  rw [mem_owing_iff_stands (answered hrun hserved)]
  constructor
  · intro hstands
    obtain ⟨id, hpush⟩ :=
      Window.pushes_of_mem_owing ((mem_owing_iff_stands (answered hrun hserved)).mpr hstands)
    obtain ⟨now, reply, answer, he⟩ := mem_moves_push hpush
    obtain ⟨r, h, rfl, hr, -⟩ := sends_userSubsKey (sends_of_mem hrun he) rfl
    have hconforms := stands_conforms hrun hserved hr u
    rw [hstands] at hconforms
    refine op?_handler_iff.mpr ⟨h, hr, Task.op?_eq_some.mpr ?_⟩
    cases hrest : h.task.rest with
    | pure response =>
      rw [hrest] at hconforms
      exact absurd rfl hconforms
    | throw e =>
      rw [hrest] at hconforms
      exact absurd rfl hconforms
    | op i next =>
      rw [hrest] at hconforms
      exact ⟨next, by rw [hconforms.1.1.mp rfl]⟩
  · intro hop
    obtain ⟨r, h, rfl, hr, -⟩ := sends_userSubsKey (sends_of_op? hop) rfl
    obtain ⟨h', hr', htask⟩ := op?_handler_iff.mp hop
    cases hr.symm.trans hr'
    obtain ⟨next, hrest⟩ := Task.op?_eq_some.mp htask
    have hconforms := stands_conforms hrun hserved hr u
    rw [hrest] at hconforms
    exact hconforms.1.1.mpr rfl

/-- **A handler pushes before anything else it does to the list.** -/
theorem stands_at_push {u id : Bytes} {who : Party} {now : Nat} {executed : Option Reply}
    {answer : Answer} {pre post : List Event}
    (hlog : s.log = pre ++
      .wire who now (.command (.lpush (userSubsKey u) id)) executed answer :: post) :
    stands (userSubsKey u) who pre = .unrecorded := by
  obtain ⟨as₁, net, as₂, m, rfl, hm, rfl, hop, -, -⟩ := at_event hrun hlog
  have hserved' : ∀ a ∈ as₁, a.Served := fun a ha => hserved a (List.mem_append_left _ ha)
  obtain ⟨r, h, rfl, hr, -⟩ := sends_userSubsKey (sends_of_op? hop) rfl
  obtain ⟨h', hr', htask⟩ := op?_handler_iff.mp hop
  cases hr.symm.trans hr'
  obtain ⟨next, hrest⟩ := Task.op?_eq_some.mp htask
  have hconforms := stands_conforms hm hserved' hr u
  rw [hrest] at hconforms
  exact hconforms.1.2 id rfl

theorem owing_nodup (u : Bytes) : (listWindow (userSubsKey u) s.log).owing.Nodup := by
  refine listWindow_induction (fun w => w.owing.Nodup) .nil ?_ fun w who hw => hw.filter _
  intro pre post who now id reply answer hlog hnodup
  refine List.nodup_cons.mpr ⟨fun hmem => ?_, hnodup⟩
  have hanswered : ∀ e ∈ pre, e.Answered := fun e he =>
    answered hrun hserved e (by rw [hlog]; simp [he])
  have hpushed := (mem_owing_iff_stands hanswered).mp hmem
  rw [stands_at_push hrun hserved hlog] at hpushed
  cases hpushed

theorem pushed_nodup (hids : DistinctIds s) (u : Bytes) :
    (listWindow (userSubsKey u) s.log).pushed.Nodup := by
  have hsent : ∀ {who now id reply answer},
      Event.wire who now (.command (.lpush (userSubsKey u) id)) reply answer ∈ s.log →
        ∃ r h, who = .handler r ∧ s.requests r = some h ∧ id = h.env.submissionId.text := by
    intro who now id reply answer he
    obtain ⟨r, h, hwho, hr, hc | hc⟩ := sends_userSubsKey (sends_of_mem hrun he) rfl
    · exact ⟨r, h, hwho, hr, (Cmd.lpush.inj hc).2⟩
    · cases hc
  refine listWindow_induction (fun w => w.pushed.Nodup) .nil ?_ fun w who hw => hw
  intro pre post who now id reply answer hlog hnodup
  refine List.nodup_cons.mpr ⟨fun hmem => ?_, hnodup⟩
  obtain ⟨who', hpush⟩ := Window.mem_pushed_iff.mp hmem
  obtain ⟨now', reply', answer', he'⟩ := mem_moves_push hpush
  have hlater : Event.wire who now (.command (.lpush (userSubsKey u) id)) (some reply) answer ∈
      s.log := by simp [hlog]
  have hearlier : Event.wire who' now' (.command (.lpush (userSubsKey u) id)) (some reply')
      answer' ∈ s.log := by simp [hlog, he']
  obtain ⟨r, h, rfl, hr, hid⟩ := hsent hlater
  obtain ⟨r', h', rfl, hr', hid'⟩ := hsent hearlier
  -- the earlier push of the id is of the same handler, which has then pushed before
  obtain rfl := hids r r' h h' hr hr' (hid.symm.trans hid')
  have huntouched := untouched_of_unrecorded (stands_at_push hrun hserved hlog)
    _ (mem_ownTrace_iff.mpr ⟨now', some reply', he'⟩)
  rw [listMove?, if_pos rfl] at huntouched
  cases huntouched

end Served

/-! ### The list and what is read of it -/

def pushedIds (u : Bytes) (log : List Event) : List Bytes :=
  ((log.filterMap (Event.listMove? (userSubsKey u))).filterMap Move.pushed?).reverse

/-- **The list of a user**, after any pushes and trims in any order: it is the front of the
ids that were pushed, newest first, has the newest 100 of them, and is too long by no more
than the calls that have pushed and not trimmed.  Where Redis answers, these are the calls
that stand at their `LTRIM`.  So `get_user_submissions` returns the newest ids, as many as it
was asked for, and where the ids are distinct each of them once. -/
theorem userSubmissions_window {as : List Action} (hrun : Reaches cfg as s) (u : Bytes) :
    ∃ l, s.store (userSubsKey u) = listEntry l ∧
      l <+: pushedIds u s.log ∧
      min (pushedIds u s.log).length 100 ≤ l.length ∧
      l.length ≤ 100 + (listWindow (userSubsKey u) s.log).owing.length ∧
      (∀ limit : Int, 1 ≤ limit → limit ≤ 100 →
        Talk.direct s.now s.store (getUserSubmissions u limit) =
          (s.store, .ok ((pushedIds u s.log).take limit.toNat))) ∧
      ((∀ a ∈ as, a.Served) →
        (∃ calls : Finset Party,
          (∀ who, who ∈ calls ↔ s.op? who = some (.command (.ltrim (userSubsKey u) 0 99))) ∧
            l.length ≤ 100 + calls.card) ∧
        (DistinctIds s → (pushedIds u s.log).Nodup)) := by
  have hpushed : (listWindow (userSubsKey u) s.log).pushed = pushedIds u s.log :=
    Window.pushed_replay _
  have hstore := store_listWindow hrun u
  have hnewest : Newest 100 (listWindow (userSubsKey u) s.log).pushed
      (listWindow (userSubsKey u) s.log).kept := Window.newest_replay _
  have hlength : (listWindow (userSubsKey u) s.log).kept.length ≤
      100 + (listWindow (userSubsKey u) s.log).owing.length := Window.length_replay_le _
  rw [hpushed] at hnewest
  refine ⟨_, hstore, hnewest.front, hnewest.enough, hlength, fun limit hlow hhigh => ?_,
    fun hserved => ⟨?_, ?_⟩⟩
  · rw [getUserSubmissions_listEntry hstore hlow, hnewest.take_eq (by omega)]
  · refine ⟨(listWindow (userSubsKey u) s.log).owing.toFinset, fun who => ?_, ?_⟩
    · rw [List.mem_toFinset, mem_owing_iff hrun hserved]
    · have hnodup := owing_nodup hrun hserved u
      rwa [List.toFinset_card_of_nodup hnodup]
  · intro hids
    rw [← hpushed]
    exact pushed_nodup hrun hserved hids u

/-- After the one submission of Ann, her list has its id, once, and nobody is about to trim
it. -/
theorem userSubmissions_window_ann :
    ∃ s : Sys textConfig, Reaches textConfig inOrder s ∧
      pushedIds "ann" s.log = [(zeros 32).text] ∧ (pushedIds "ann" s.log).Nodup ∧
      (∃ calls : Finset Party, ∀ who,
        who ∈ calls ↔ s.op? who = some (.command (.ltrim (userSubsKey "ann") 0 99))) ∧
      Talk.direct s.now s.store (getUserSubmissions "ann" 100) =
        (s.store, .ok [(zeros 32).text]) := by
  obtain ⟨h₀, h₁, response, henv₀, henv₁, -, -, -, hrun⟩ := ann_in_order
  obtain ⟨l, -, -, -, -, hread, hserved⟩ := userSubmissions_window hrun "ann"
  obtain ⟨⟨calls, hcalls, -⟩, hnodup⟩ :=
    hserved fun a ha => (faultFree_inOrder a ha).served
  have hpushed : pushedIds "ann" (workerServed textConfig (announced h₀ h₁) 0 zeroJob oneResult
      oneStored).log = [(zeros 32).text] := rfl
  refine ⟨_, hrun, hpushed, hnodup (distinctIds_ann henv₀ henv₁ rfl), ⟨calls, hcalls⟩, ?_⟩
  rw [hread 100 (by decide) (by decide), hpushed]
  rfl

end Ocpe.System
