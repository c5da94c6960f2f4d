import Ocpe.System.Listing
import Ocpe.System.Polling

/-!
# What a look-up reports

`get_status` and `get_result` send one `GET` and decode the reply.  They tell a null
pointer and a nil reply apart from the rest, but not an error reply from a string: the
error's text goes through the decoder, and `verdict_from_string` makes `INTERNAL_ERROR`,
a terminal verdict, of every text it does not know.

* `faithful_iff`: a look-up reports what the store holds the encoding of, and nothing on
  an error reply, exactly when no error is replied and a string that is replied is an
  encoding, or does not decode.  `get_status` and `get_result` are its two cases.
* `worker_wrote`: in every run, a terminal verdict that `GET /submissions/:id` reports was
  written by a worker, unless one of its two look-ups was replied to with an error.
* `loading_reported`: a Redis that is still loading becomes a final verdict.
-/

namespace Ocpe

open Lib Redis Prog RedisClient

/-! ### One look-up -/

section LookUp

variable {now : Nat} {store : Store} {t : List (Wire × Answer)}

/-- Redis holds this store when it is asked.  What the network does to each operation,
and in what state the connection is, is left open. -/
def AnsweredBy (now : Nat) (store : Store) (t : List (Wire × Answer)) : Prop :=
  ∀ x ∈ t, ∃ ctx net, x.2 = (exchange now store ctx x.1 net).2.2

def ErrorReplied (t : List (Wire × Answer)) : Prop :=
  ∃ op msg, (op, Answer.reply (.error msg)) ∈ t

def StringsAre (P : Bytes → Prop) (t : List (Wire × Answer)) : Prop :=
  ∀ op b, (op, Answer.reply (.str b)) ∈ t → P b

def HasEnded {α : Type} (q : Talk α) : Prop := ∀ op next, q ≠ .op op next

/-- A look-up of the key that ended as `q`: a value is returned only if the store holds an
encoding of it, and after an error reply there is no value and no exception. -/
structure Faithful {α : Type} (Encodes : α → Bytes → Prop) (now : Nat) (store : Store) (key : Bytes)
    (t : List (Wire × Answer)) (q : Talk (Option α)) : Prop where
  held : ∀ a, q = .pure (some a) → ∃ b, Encodes a b ∧ store.live now key = some (.str b)
  error : ErrorReplied t → q = .pure none

theorem reply_get {key : Bytes} {reply : Reply} (h : AnsweredBy now store t)
    (hmem : (.command (.get key), .reply reply) ∈ t) :
    reply = .nil ∨ (∃ msg, reply = .error msg) ∨
      ∃ b, reply = .str b ∧ store.live now key = some (.str b) := by
  obtain ⟨ctx, net, hanswer⟩ := h _ hmem
  have hcases : (∃ msg, reply = .error msg) ∨ reply = (exec now store (.get key)).2 := by
    cases ctx with
    | null => cases net <;> cases hanswer
    | broken e => cases net <;> cases hanswer
    | good =>
      cases net with
      | served => exact .inr (Answer.reply.inj hanswer)
      | refused msg => exact .inl ⟨msg, Answer.reply.inj hanswer⟩
      | unsent e => cases hanswer
      | unanswered e => cases hanswer
  rcases hcases with herror | hexec
  · exact .inr (.inl herror)
  · cases hlive : store.live now key with
    | none =>
      left
      rw [hexec, exec_get_of_none hlive]
    | some v =>
      right
      cases v with
      | str b =>
        right
        exact ⟨b, by rw [hexec, exec_get_of_str hlive], rfl⟩
      | list l =>
        left
        refine ⟨"WRONGTYPE Operation against a key holding the wrong kind of value", ?_⟩
        rw [hexec, exec]
        simp only [hlive]
        rfl

theorem command_of_reply {c : Cmd} {x : Option Reply} (h : AnsweredBy now store t)
    (hpath : (execCommand c).Path t (.pure x)) {op : Wire} {reply : Reply}
    (hmem : (op, .reply reply) ∈ t) : op = .command c := by
  have hissues := (execCommand_issues (G := fun op => op = .command c ∨ op = .connect)
    (.inl rfl) (.inr rfl)).of_path hpath
  rcases hissues.1 _ hmem with hop | hop
  · exact hop
  · obtain ⟨ctx, net, hanswer⟩ := h _ hmem
    simp only at hop
    subst hop
    cases net <;> cases hanswer

theorem replied_iff {c : Cmd} {x : Option Reply} (h : AnsweredBy now store t)
    (hpath : (execCommand c).Path t (.pure x)) (reply : Reply) :
    (∃ op, (op, .reply reply) ∈ t) ↔ x = some reply := by
  constructor
  · intro ⟨i, hmem⟩
    have hop := command_of_reply h hpath hmem
    subst hop
    exact execCommand_path_of_reply hpath hmem
  · intro hx
    subst hx
    exact ⟨_, reply_mem hpath⟩

variable {α : Type} {Encodes : α → Bytes → Prop} {key : Bytes} {decode : Bytes → Except Exn α}
  {f : Option Reply → Talk (Option α)} {q : Talk (Option α)}

/-- What a look-up makes of the reply: nothing of a null pointer or a nil reply, and of
any other reply what its text decodes to. -/
structure Decodes (decode : Bytes → Except Exn α) (f : Option Reply → Talk (Option α)) : Prop where
  none : f none = .pure none
  nil : f (some .nil) = .pure Option.none
  text : ∀ reply, reply ≠ .nil → f (some reply) =
    (Prog.ofExcept (decode (replyStr reply)) >>= fun a => .pure (some a))

theorem Decodes.ended (hf : Decodes decode f) (x : Option Reply) : HasEnded (f x) := by
  intro i next
  cases x with
  | none => rw [hf.none]; intro h; cases h
  | some reply =>
    by_cases hnil : reply = .nil
    · rw [hnil, hf.nil]; intro h; cases h
    · rw [hf.text reply hnil]
      cases decode (replyStr reply) with
      | error e => intro h; cases h
      | ok a => intro h; cases h

theorem Decodes.path (hf : Decodes decode f) {c : Cmd}
    (hpath : (execCommand c >>= f).Path t q) (hq : HasEnded q) :
    ∃ x, (execCommand c).Path t (.pure x) ∧ q = f x := by
  obtain ⟨t₁, t₂, x, ht, -, h₁, h₂⟩ := (execCommand_returns c).path_bind hpath hq
  refine ⟨x, ?_⟩
  have hend : t₂ = [] ∧ q = f x := by
    have hx := hf.ended x
    cases hfx : f x with
    | pure a => rw [hfx] at h₂; exact path_pure.mp h₂
    | throw e => rw [hfx] at h₂; exact path_throw.mp h₂
    | op i next => exact absurd hfx (hx i next)
  rw [ht, hend.1, List.append_nil]
  exact ⟨h₁, hend.2⟩

theorem faithful_iff (hf : Decodes decode f) (h : AnsweredBy now store t)
    (hpath : (execCommand (.get key) >>= f).Path t q) (hq : HasEnded q) :
    Faithful Encodes now store key t q ↔
      ¬ ErrorReplied t ∧ StringsAre (fun b => ∀ a, decode b = .ok a → Encodes a b) t := by
  obtain ⟨x, hx, rfl⟩ := hf.path hpath hq
  have hreplied := replied_iff h hx
  have herror : ErrorReplied t ↔ ∃ msg, x = some (.error msg) := by
    constructor
    · intro ⟨i, msg, hmem⟩
      exact ⟨msg, (hreplied _).mp ⟨i, hmem⟩⟩
    · intro ⟨msg, hmsg⟩
      obtain ⟨i, hmem⟩ := (hreplied _).mpr hmsg
      exact ⟨i, msg, hmem⟩
  have hreply : ∀ reply, x = some reply → reply = .nil ∨ (∃ msg, reply = .error msg) ∨
      ∃ b, reply = .str b ∧ store.live now key = some (.str b) := by
    intro reply hsome
    exact reply_get h (reply_mem (hsome ▸ hx))
  constructor
  · intro hfaithful
    constructor
    · intro he
      obtain ⟨msg, hmsg⟩ := herror.mp he
      have hnone := hfaithful.error he
      rw [hmsg, hf.text _ (by intro h; cases h)] at hnone
      cases hd : decode (replyStr (.error msg)) with
      | error e => rw [hd] at hnone; cases hnone
      | ok a => rw [hd] at hnone; cases hnone
    · intro i b hmem a ha
      have hb := (hreplied _).mp ⟨i, hmem⟩
      have hvalue : f x = .pure (some a) := by
        rw [hb, hf.text _ (by intro h; cases h)]
        show (Prog.ofExcept (decode b) >>= fun a => .pure (some a)) = _
        rw [ha]
        rfl
      obtain ⟨b', hencodes, hlive⟩ := hfaithful.held a hvalue
      rcases hreply _ hb with hnil | ⟨msg, hmsg⟩ | ⟨b'', hstr, hheld⟩
      · cases hnil
      · cases hmsg
      · cases hstr
        rw [hlive] at hheld
        cases hheld
        exact hencodes
  · intro ⟨hnoerror, hstrings⟩
    refine ⟨?_, fun he => absurd he hnoerror⟩
    intro a ha
    cases x with
    | none => rw [hf.none] at ha; cases ha
    | some reply =>
      rcases hreply reply rfl with rfl | ⟨msg, rfl⟩ | ⟨b, rfl, hheld⟩
      · rw [hf.nil] at ha; cases ha
      · exact absurd (herror.mpr ⟨msg, rfl⟩) hnoerror
      · refine ⟨b, ?_, hheld⟩
        obtain ⟨i, hmem⟩ := (hreplied (.str b)).mpr rfl
        refine hstrings i b hmem a ?_
        rw [hf.text _ (by intro h; cases h)] at ha
        change (Prog.ofExcept (decode b) >>= fun a => .pure (some a)) = _ at ha
        cases hd : decode b with
        | error e => rw [hd] at ha; cases ha
        | ok a' => rw [hd] at ha; cases ha; rfl

def SpellsVerdict (v : Verdict) (b : Bytes) : Prop := b = verdictToString v

def WritesResult (F : JsonFormat) (result : SubmissionResult) (b : Bytes) : Prop :=
  submissionResultToJson F result = .ok b

theorem decodes_getStatus :
    Decodes (fun b => .ok (verdictFromString b)) fun
      | none => Prog.pure none
      | some .nil => Prog.pure none
      | some reply => (Prog.pure (some (verdictFromString (replyStr reply))) :
          Talk (Option Verdict)) where
  none := rfl
  nil := rfl
  text reply hnil := by
    cases reply with
    | nil => exact absurd rfl hnil
    | _ => rfl

theorem decodes_getResult (F : JsonFormat) :
    Decodes (fun b => (submissionResultFromJson F b).mapError Exn.json) fun
      | none => Prog.pure none
      | some .nil => Prog.pure none
      | some reply => (Talk.json (submissionResultFromJson F (replyStr reply)) >>= fun result =>
          Prog.pure (some result) : Talk (Option SubmissionResult)) where
  none := rfl
  nil := rfl
  text reply hnil := by
    cases reply with
    | nil => exact absurd rfl hnil
    | _ => rfl

theorem getStatus_faithful_iff {id : Bytes} {q : Talk (Option Verdict)}
    (h : AnsweredBy now store t) (hpath : (getStatus id).Path t q) (hq : HasEnded q) :
    Faithful SpellsVerdict now store (statusKey id) t q ↔
      ¬ ErrorReplied t ∧ StringsAre (fun b => ∃ v, SpellsVerdict v b) t := by
  rw [faithful_iff decodes_getStatus h hpath hq]
  refine and_congr_right fun _ => ?_
  constructor
  · intro hstrings i b hmem
    exact ⟨_, hstrings i b hmem _ rfl⟩
  · intro hstrings i b hmem v hv
    obtain ⟨w, hw⟩ := hstrings i b hmem
    obtain rfl : verdictFromString b = v := Except.ok.inj hv
    rw [SpellsVerdict] at hw ⊢
    rw [hw, verdictFromString_toString]

theorem getResult_faithful_iff {F : JsonFormat} {id : Bytes} {q : Talk (Option SubmissionResult)}
    (h : AnsweredBy now store t) (hpath : (getResult F id).Path t q) (hq : HasEnded q) :
    Faithful (WritesResult F) now store (resultKey id) t q ↔
      ¬ ErrorReplied t ∧ StringsAre (fun b => (∃ result, WritesResult F result b) ∨
        ∀ result, submissionResultFromJson F b ≠ .ok result) t := by
  rw [faithful_iff (decodes_getResult F) h hpath hq]
  refine and_congr_right fun _ => ?_
  constructor
  · intro hstrings i b hmem
    by_cases hread : ∃ result, submissionResultFromJson F b = .ok result
    · obtain ⟨result, hresult⟩ := hread
      exact .inl ⟨result, hstrings i b hmem result (by rw [hresult]; rfl)⟩
    · exact .inr (not_exists.mp hread)
  · intro hstrings i b hmem result hresult
    have hread := mapError_eq_ok.mp hresult
    rcases hstrings i b hmem with ⟨result', hwrites⟩ | hnone
    · have hsame := resultFromJson_toJson hwrites
      rw [hread] at hsame
      obtain rfl : result = result' := Except.ok.inj hsame
      exact hwrites
    · exact absurd hread (hnone result)

theorem Decodes.value (hf : Decodes decode f) {x : Option Reply} {a : α}
    (hx : f x = .pure (some a)) :
    ∃ reply, x = some reply ∧ reply ≠ .nil ∧ decode (replyStr reply) = .ok a := by
  cases x with
  | none => rw [hf.none] at hx; cases hx
  | some reply =>
    by_cases hnil : reply = .nil
    · rw [hnil, hf.nil] at hx; cases hx
    · refine ⟨reply, rfl, hnil, ?_⟩
      rw [hf.text reply hnil] at hx
      cases hd : decode (replyStr reply) with
      | error e => rw [hd] at hx; cases hx
      | ok a' => rw [hd] at hx; cases hx; rfl

end LookUp

/-! ### The handler -/

/-- **A verdict that is reported** was decoded from the reply to one of two look-ups. -/
theorem getSubmission_decoded {cfg : Config} {t : List (Wire × Answer)} {id : Bytes}
    {authorization : Option Bytes} {response : Response} {v : Verdict}
    (h : (ApiServer.getSubmission cfg authorization id).Path t (.pure response))
    (hsaid : response.Says cfg v) :
    (∃ reply result, (.command (.get (resultKey id)), .reply reply) ∈ t ∧ reply ≠ .nil ∧
      submissionResultFromJson cfg.format (replyStr reply) = .ok result ∧ v = result.verdict) ∨
    ∃ reply, (.command (.get (statusKey id)), .reply reply) ∈ t ∧ reply ≠ .nil ∧
      v = verdictFromString (replyStr reply) := by
  obtain ⟨t₁, t₂, r, rfl, h₁, h₂⟩ := path_bind_pure_iff.mp h
  cases r with
  | error response' =>
    cases (path_pure.mp h₂).2
    obtain ⟨h200, -⟩ := hsaid
    rw [ApiServer.requireAuth_error h₁] at h200
    cases h200
  | ok username =>
    obtain ⟨t₃, t₄, found, rfl, h₃, h₄⟩ := path_bind_pure_iff.mp h₂
    obtain ⟨x, hx, hfound⟩ := (decodes_getResult cfg.format).path h₃ (fun i next h => by cases h)
    cases found with
    | some result =>
      left
      obtain ⟨reply, hreply, hnil, hread⟩ := (decodes_getResult cfg.format).value hfound.symm
      rw [hreply] at hx
      refine ⟨reply, result, ?_, hnil, mapError_eq_ok.mp hread, (content_verdict h₄ hsaid).2⟩
      exact List.mem_append_right _ (List.mem_append_left _ (reply_mem hx))
    | none =>
      right
      obtain ⟨t₅, t₆, status, rfl, h₅, h₆⟩ := path_bind_pure_iff.mp h₄
      obtain ⟨y, hy, hstatus⟩ := decodes_getStatus.path h₅ (fun i next h => by cases h)
      cases status with
      | none =>
        cases (path_pure.mp h₆).2
        cases hsaid.1
      | some status =>
        obtain ⟨reply, hreply, hnil, hread⟩ := decodes_getStatus.value hstatus.symm
        rw [hreply] at hy
        refine ⟨reply, ?_, hnil, ?_⟩
        · exact List.mem_append_right _
            (List.mem_append_right _ (List.mem_append_left _ (reply_mem hy)))
        · rw [(respond_verdict h₆ hsaid).2, ← Except.ok.inj hread]

end Ocpe

namespace Ocpe.System

open Lib Redis Prog RedisClient AuthService

variable {cfg : Config} {s : Sys cfg}

/-! ### Every run -/

def WorkerWrote (s : Sys cfg) (id : Bytes) (v : Verdict) : Prop :=
  ∃ w now key value reply answer,
    .wire (.worker w) now (.command (.set key value (some 86400))) (some reply) answer ∈ s.log ∧
      ((key = statusKey id ∧ value = verdictToString v) ∨
        (key = resultKey id ∧ ∃ result : SubmissionResult, result.verdict = v ∧
          submissionResultToJson cfg.format result = .ok value))

theorem WorkerWrote.mono {s' : Sys cfg} {id : Bytes} {v : Verdict} (h : WorkerWrote s id v)
    (hgrows : Grows s s') : WorkerWrote s' id v := by
  obtain ⟨w, now, key, value, reply, answer, hmem, hvalue⟩ := h
  exact ⟨w, now, key, value, reply, answer, hgrows.log.subset hmem, hvalue⟩

/-- A text that the store holds under a key that is only written by `SET` was written so. -/
theorem setter_of_live {as : List Action} (hrun : Reaches cfg as s) {key b : Bytes}
    (hkey : SetOnly key) (hlive : s.store.live s.now key = some (.str b)) :
    ∃ e x, e ∈ s.log ∧ e.set? key = some x ∧ x.value = b := by
  obtain ⟨entry, hentry, hvalue⟩ := Option.bind_eq_some_iff.mp hlive
  obtain ⟨pre, e, post, x, hlog, hset, -, rfl⟩ := last_of_held hkey hrun hentry
  refine ⟨e, x, by rw [hlog]; simp, hset, ?_⟩
  split at hvalue
  · exact Value.str.inj (Option.some.inj hvalue)
  · cases hvalue

theorem worker_wrote_status {as : List Action} (hrun : Reaches cfg as s) {id b : Bytes}
    (hlive : s.store.live s.now (statusKey id) = some (.str b))
    (hterminal : (verdictFromString b).Terminal) : WorkerWrote s id (verdictFromString b) := by
  obtain ⟨e, x, hmem, hset, hx⟩ := setter_of_live hrun (setOnly_statusKey id) hlive
  obtain ⟨hex, hspelled, hwho⟩ := status_cases hrun hmem hset
  have hv : x.verdict = verdictFromString b := by rw [SetEvent.verdict, hx]
  rw [← hv] at hterminal ⊢
  obtain ⟨who, reply, answer, rfl⟩ := Event.set?_eq_some.mp hset
  rcases hwho with ⟨-, hpending⟩ | hstatus
  · rw [hpending] at hterminal
    exact absurd hterminal (by decide)
  · cases who with
    | handler r => cases hstatus
    | worker w =>
      rw [hex, hspelled] at hmem
      exact ⟨w, _, _, _, reply, answer, hmem, .inl ⟨rfl, rfl⟩⟩

theorem worker_wrote_result {as : List Action} (hrun : Reaches cfg as s) {id b : Bytes}
    {result : SubmissionResult} (hlive : s.store.live s.now (resultKey id) = some (.str b))
    (hread : submissionResultFromJson cfg.format b = .ok result) :
    WorkerWrote s id result.verdict := by
  obtain ⟨e, x, hmem, hset, hx⟩ := setter_of_live hrun (setOnly_resultKey id) hlive
  obtain ⟨hex, hwho⟩ := result_cases hrun hmem hset
  obtain ⟨written, hwritten, -⟩ := result_written hrun hmem hset
  have hsame : written = result := by
    have hback := resultFromJson_toJson hwritten
    rw [hx, hread] at hback
    exact (Except.ok.inj hback).symm
  obtain ⟨who, reply, answer, rfl⟩ := Event.set?_eq_some.mp hset
  cases who with
  | handler r => cases hwho
  | worker w =>
    rw [hex] at hmem
    exact ⟨w, _, _, _, reply, answer, hmem, .inr ⟨rfl, written, by rw [hsame], hwritten⟩⟩

def PlainReads (h : Handling cfg) (id : Bytes) : Prop :=
  ∀ key, key = resultKey id ∨ key = statusKey id →
    ∀ msg, (.command (.get key), .reply (.error msg)) ∉ h.task.trace

/-- **A terminal verdict that is reported was written by a worker**, in every run. -/
theorem worker_wrote {as : List Action} (hrun : Reaches cfg as s) {r : Nat} {h : Handling cfg}
    (hr : s.requests r = some h) {authorization : Option Bytes} {id : Bytes}
    (hrequest : h.request = .submission authorization id) {response : Response}
    (hrest : h.task.rest = .pure response) {v : Verdict} (hsaid : response.Says cfg v)
    (hterminal : v.Terminal) (hplain : PlainReads h id) : WorkerWrote s id v := by
  have hpath := h.path
  rw [hrequest, hrest] at hpath
  rcases getSubmission_decoded hpath hsaid with
    ⟨reply, result, hmem, hnil, hread, rfl⟩ | ⟨reply, hmem, hnil, rfl⟩
  · obtain ⟨as₁, as₂, m, text, -, hm, hrest, -, rfl, hlive⟩ := looked_up hrun hr hmem hnil
      fun msg he => hplain _ (.inl rfl) msg (he ▸ hmem)
    exact (worker_wrote_result hm hlive hread).mono (grows_run hrest)
  · obtain ⟨as₁, as₂, m, text, -, hm, hrest, -, rfl, hlive⟩ := looked_up hrun hr hmem hnil
      fun msg he => hplain _ (.inr rfl) msg (he ▸ hmem)
    exact (worker_wrote_status hm hlive hterminal).mono (grows_run hrest)

/-- **What the look-ups report.**  A look-up is faithful exactly when no error is replied
and a string that is replied is an encoding (or, for a result, does not decode).  And in
every run, a terminal verdict that is reported was written by a worker, where the two
look-ups got no error reply. -/
theorem reported_iff (cfg : Config) (id : Bytes) :
    (∀ (now : Nat) (store : Store) (t : List (Wire × Answer)) (q : Talk (Option Verdict)),
      AnsweredBy now store t → (getStatus id).Path t q → HasEnded q →
        (Faithful SpellsVerdict now store (statusKey id) t q ↔
          ¬ ErrorReplied t ∧ StringsAre (fun b => ∃ v, SpellsVerdict v b) t)) ∧
    (∀ (now : Nat) (store : Store) (t : List (Wire × Answer)) (q : Talk (Option SubmissionResult)),
      AnsweredBy now store t → (getResult cfg.format id).Path t q → HasEnded q →
        (Faithful (WritesResult cfg.format) now store (resultKey id) t q ↔
          ¬ ErrorReplied t ∧ StringsAre (fun b => (∃ result, WritesResult cfg.format result b) ∨
            ∀ result, submissionResultFromJson cfg.format b ≠ .ok result) t)) ∧
    ∀ (as : List Action) (s : Sys cfg), Reaches cfg as s →
      ∀ (r : Nat) (h : Handling cfg) (authorization : Option Bytes) (response : Response)
        (v : Verdict), s.requests r = some h → h.request = .submission authorization id →
        h.task.rest = .pure response → response.Says cfg v → v.Terminal → PlainReads h id →
        WorkerWrote s id v := by
  refine ⟨?_, ?_, ?_⟩
  · intro now store t q h hpath hq
    exact getStatus_faithful_iff h hpath hq
  · intro now store t q h hpath hq
    exact getResult_faithful_iff h hpath hq
  · intro as s hrun r h authorization response v hr hrequest hrest hsaid hterminal hplain
    exact worker_wrote hrun hr hrequest hrest hsaid hterminal hplain

def oneStatus : Store :=
  Store.put (fun _ => none) (statusKey "1f") (some ⟨.str "ACCEPTED", none⟩)

theorem reported_iff_accepted :
    (getStatus "1f").Path [(.command (.get (statusKey "1f")), .reply (.str "ACCEPTED"))]
        (.pure (some .accepted)) ∧
      Faithful SpellsVerdict 0 oneStatus (statusKey "1f")
        [(.command (.get (statusKey "1f")), .reply (.str "ACCEPTED"))]
        (.pure (some .accepted)) := by
  have hpath : (getStatus "1f").Path
      [(.command (.get (statusKey "1f")), .reply (.str "ACCEPTED"))] (.pure (some .accepted)) :=
    ⟨rfl, rfl⟩
  refine ⟨hpath, ((reported_iff textConfig "1f").1 0 oneStatus _ _ ?_ hpath
    (fun i next h => by cases h)).mpr
    ⟨?_, ?_⟩⟩
  · intro x hx
    obtain rfl := List.mem_singleton.mp hx
    exact ⟨.good, .served, rfl⟩
  · intro ⟨i, msg, hmem⟩
    simp at hmem
  · intro i b hmem
    simp only [List.mem_singleton, Prod.mk.injEq, Answer.reply.injEq, Reply.str.injEq] at hmem
    exact ⟨.accepted, hmem.2⟩

/-! ### A Redis that is loading -/

def loadingText : Bytes := "LOADING Redis is loading the dataset in memory"

theorem getStatus_loading :
    AnsweredBy 0 (fun _ => none) [(.command (.get (statusKey "1f")), .reply (.error loadingText))] ∧
      (getStatus "1f").Path [(.command (.get (statusKey "1f")), .reply (.error loadingText))]
        (.pure (some .internalError)) := by
  refine ⟨?_, rfl, rfl⟩
  intro x hx
  obtain rfl := List.mem_singleton.mp hx
  exact ⟨.good, .refused loadingText, rfl⟩

theorem getSubmission_loading {env : Surroundings} {token username id : Bytes}
    (htoken : token ≠ []) (hid : ValidUtf8 id) :
    ∃ response : Response, response.Says cfg .internalError ∧
      (ApiServer.handle cfg env (.submission (some (bytes "Bearer " ++ token)) id)).Path
        [(.command (.get (tokenKey token)), .reply (.str username)),
          (.command (.get (resultKey id)), .reply .nil),
          (.command (.get (statusKey id)), .reply (.error loadingText))] (.pure response) := by
  have hplain : (Json.null |>.set "submission_id" (.str id)
      |>.set "verdict" (.str (verdictToString .internalError))).Plain :=
    plain_set (plain_set plain_null plain_str) plain_str
  have hutf8 : (Json.null |>.set "submission_id" (.str id)
      |>.set "verdict" (.str (verdictToString .internalError))).Utf8 := by
    simp +decide [utf8_objSet_iff, hid]
  obtain ⟨content, hdump⟩ := cfg.format.exists_dumpText hutf8
  have hsays : Response.Says cfg ⟨200, content⟩ .internalError := by
    refine ⟨rfl, _, cfg.format.parseText_dumpText hplain hdump, ?_⟩
    simp +decide
  refine ⟨⟨200, content⟩, hsays, ?_⟩
  have hrespond : (ApiServer.respond cfg 200 (Json.null |>.set "submission_id" (.str id)
      |>.set "verdict" (.str (verdictToString .internalError)))).Path [] (.pure ⟨200, content⟩) := by
    rw [path_nil, ApiServer.respond, hdump]
    rfl
  refine Path.bind (ApiServer.requireAuth_path htoken) ?_
  exact ⟨rfl, rfl, hrespond⟩

/-- Ann asks for a submission that there is not. -/
def asksWhileLoading : List Action :=
  signUpActions ++
    [.request 1 0 (.submission (some (bytes "Bearer " ++ (zeros 64).text)) "1f") zeroSurroundings,
      .perform (.handler 1) .served, .perform (.handler 1) .served,
      .perform (.handler 1) (.refused loadingText)]

def Event.ofWorker : Event → Bool
  | .wire (.worker _) _ _ _ _ => true
  | _ => false

/-- **She is told `INTERNAL_ERROR`**, which no worker has written. -/
theorem loading_reported :
    (AnsweredBy 0 (fun _ => none)
        [(.command (.get (statusKey "1f")), .reply (.error loadingText))] ∧
      (getStatus "1f").Path [(.command (.get (statusKey "1f")), .reply (.error loadingText))]
        (.pure (some .internalError)) ∧
      ¬ Faithful SpellsVerdict 0 (fun _ => none) (statusKey "1f")
        [(.command (.get (statusKey "1f")), .reply (.error loadingText))]
        (.pure (some .internalError))) ∧
      ∃ (s : Sys textConfig) (h : Handling textConfig) (response : Response),
        Reaches textConfig asksWhileLoading s ∧ s.requests 1 = some h ∧
        h.request = .submission (some (bytes "Bearer " ++ (zeros 64).text)) "1f" ∧
        h.task.rest = .pure response ∧ response.Says textConfig .internalError ∧
        ∀ v, ¬ WorkerWrote s "1f" v := by
  constructor
  · refine ⟨getStatus_loading.1, getStatus_loading.2, ?_⟩
    intro hfaithful
    have hnone := hfaithful.error ⟨_, loadingText, List.mem_singleton.mpr rfl⟩
    cases hnone
  · obtain ⟨h₀, -, -, hsigned⟩ := ann_signsUp
    let begun : Handling textConfig := .begin textConfig 0
      (.submission (some (bytes "Bearer " ++ (zeros 64).text)) "1f") zeroSurroundings
    let s₁ : Sys textConfig :=
      { signedUp textConfig annSurroundings "ann" "secret" h₀ with
        requests := Function.update (Function.update (fun _ => none) 0 (some h₀)) 1 (some begun) }
    have hr : s₁.requests 1 = some begun := by simp [s₁]
    obtain ⟨response, hsays, hpath⟩ :=
      @getSubmission_loading textConfig zeroSurroundings (zeros 64).text "ann" "1f" (by decide)
        (by decide)
    obtain ⟨h, -, hrequest, -, hrest, hrun⟩ :=
      @handler_alone _ s₁ 1 begun
        [(.command (.get (tokenKey (zeros 64).text)), .served),
          (.command (.get (resultKey "1f")), .served),
          (.command (.get (statusKey "1f")), .refused loadingText)] _ hr hpath
    obtain ⟨s₂, hreaches, hr₂, hlog⟩ : ∃ s₂ : Sys textConfig,
        Reaches textConfig asksWhileLoading s₂ ∧ s₂.requests 1 = some h ∧
        s₂.log.all (fun e => !e.ofWorker) = true :=
      ⟨_, run_append_iff.mpr ⟨_, hsigned, run_cons_iff.mpr ⟨s₁, rfl, hrun⟩⟩,
        by simp, rfl⟩
    refine ⟨s₂, h, response, hreaches, hr₂, hrequest, hrest, hsays, ?_⟩
    intro v ⟨w, now, key, value, reply, answer, hmem, _⟩
    exact absurd (List.all_eq_true.mp hlog _ hmem) (by simp [Event.ofWorker])

end Ocpe.System
