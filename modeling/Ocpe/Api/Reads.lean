import Ocpe.Api.Server
import Ocpe.Shared.Direct

/-!
# What the reading routes answer

`GET /submissions/:id` and each entry of `GET /auth/submissions` rebuild a submission
from its result key and, where that gives nothing, from its status key.  `known` is
what the two keys say; `getSubmission_direct` and `submissionEntry_direct` are the two
routes in terms of it.  They differ where the keys say nothing: one answers 404, the
other `PENDING`.
-/

namespace Ocpe

open Lib Redis Prog RedisClient AuthService

variable {cfg : Config} {F : JsonFormat} {now : Nat} {store : Store}

/-- The text under a key, as `std::string(reply->str, reply->len)`. -/
def Redis.Value.text (v : Value) : Bytes := replyStr (getReply (some v))

/-- What the keys of a submission say: the verdict of the result, else the status. -/
def known (F : JsonFormat) (now : Nat) (store : Store) (id : Bytes) :
    Except Exn (Option Verdict) :=
  match store.live now (resultKey id) with
  | some v =>
    ((submissionResultFromJson F v.text).map fun result => some result.verdict).mapError Exn.json
  | none => .ok ((store.live now (statusKey id)).map fun v => verdictFromString v.text)

theorem getResult_direct (id : Bytes) :
    Talk.direct now store (getResult F id) =
      match store.live now (resultKey id) with
      | none => (store, .ok none)
      | some v => (store, ((submissionResultFromJson F v.text).map some).mapError Exn.json) := by
  show Talk.direct now store (execCommand (.get (resultKey id)) >>= _) = _
  rw [direct_get]
  cases store.live now (resultKey id) with
  | none => rfl
  | some v =>
    have hjson : Talk.direct now store (Talk.json (submissionResultFromJson F v.text) >>=
        fun result => Pure.pure (some result)) =
          (store, ((submissionResultFromJson F v.text).map some).mapError Exn.json) := by
      rw [direct_json]
      cases submissionResultFromJson F v.text <;> rfl
    cases v with
    | str b => exact hjson
    | list l => exact hjson

theorem getStatus_direct (id : Bytes) :
    Talk.direct now store (getStatus id) =
      (store, .ok ((store.live now (statusKey id)).map fun v => verdictFromString v.text)) := by
  show Talk.direct now store (execCommand (.get (statusKey id)) >>= _) = _
  rw [direct_get]
  cases store.live now (statusKey id) with
  | none => rfl
  | some v => cases v <;> rfl

def listedIds (now : Nat) (store : Store) (username : Bytes) : List Bytes :=
  match store.live now (userSubsKey username) with
  | some (.list l) => range l 0 49
  | _ => []

theorem getUserSubmissions_direct (username : Bytes) :
    Talk.direct now store (getUserSubmissions username 50) =
      (store, .ok (listedIds now store username)) := by
  show Talk.direct now store (execCommand (.lrange (userSubsKey username) 0 49) >>= _) = _
  rw [direct_execCommand, listedIds]
  simp only [exec]
  cases store.live now (userSubsKey username) with
  | none => rfl
  | some v => cases v <;> rfl

theorem submissionEntry_direct (id : Bytes) :
    match known cfg.format now store id with
    | .error e => Talk.direct now store (ApiServer.submissionEntry cfg id) = (store, .error e)
    | .ok v => ∃ entry, Talk.direct now store (ApiServer.submissionEntry cfg id) = (store, .ok entry) ∧
        entry.Plain ∧ (ValidUtf8 id → entry.Utf8) ∧
        entry.find? "submission_id" = some (.str id) ∧
        entry.find? "verdict" = some (.str (verdictToString (v.getD .pending))) := by
  unfold known ApiServer.submissionEntry
  rw [direct_bind, getResult_direct]
  cases store.live now (resultKey id) with
  | some v =>
    dsimp only
    cases hread : submissionResultFromJson cfg.format v.text with
    | error e => rfl
    | ok result =>
      refine ⟨_, rfl, ?_, fun hid => ?_, by simp +decide, by simp +decide⟩
      · repeat' apply plain_set
        all_goals simp
      · obtain ⟨-, hproblem, -, hlanguage, -⟩ := utf8_resultFromJson hread
        simp +decide [utf8_objSet_iff, hid, hproblem, hlanguage, validUtf8_verdictToString]
  | none =>
    dsimp only
    rw [direct_bind, getStatus_direct]
    cases store.live now (statusKey id) with
    | some v =>
      refine ⟨_, rfl, plain_set (plain_set plain_null plain_str) plain_str, fun hid => ?_,
        by simp +decide, by simp +decide⟩
      simp +decide [utf8_objSet_iff, hid, validUtf8_verdictToString]
    | none =>
      refine ⟨_, rfl, plain_set (plain_set plain_null plain_str) plain_str, fun hid => ?_,
        by simp +decide, by simp +decide [verdictToString]⟩
      simp +decide [utf8_objSet_iff, hid]

theorem direct_content (status : Nat) (j : Json) :
    Talk.direct now store (Talk.json (cfg.format.dumpText j) >>= fun content =>
      Pure.pure (⟨status, content⟩ : Response)) =
        (store, ((cfg.format.dumpText j).map fun content => ⟨status, content⟩).mapError
          Exn.json) := by
  rw [direct_json]
  cases cfg.format.dumpText j <;> rfl

theorem getSubmission_direct {authorization : Option Bytes} {username : Bytes} (id : Bytes)
    (hauth : Talk.direct now store (ApiServer.requireAuth authorization) =
      (store, .ok (.ok username))) :
    match known cfg.format now store id with
    | .error e =>
      Talk.direct now store (ApiServer.getSubmission cfg authorization id) = (store, .error e)
    | .ok none =>
      Talk.direct now store (ApiServer.getSubmission cfg authorization id) =
        (store, .ok (errorResponse 404 "submission not found"))
    | .ok (some v) => ∃ j : Json, j.Plain ∧ (ValidUtf8 id → j.Utf8) ∧
        j.find? "verdict" = some (.str (verdictToString v)) ∧
        Talk.direct now store (ApiServer.getSubmission cfg authorization id) =
          (store, ((cfg.format.dumpText j).map fun content => ⟨200, content⟩).mapError Exn.json) := by
  unfold known ApiServer.getSubmission
  rw [direct_bind, hauth]
  dsimp only
  rw [direct_bind, getResult_direct]
  cases store.live now (resultKey id) with
  | some v =>
    dsimp only
    cases hread : submissionResultFromJson cfg.format v.text with
    | error e => rfl
    | ok result =>
      refine ⟨submissionResultJson result, plain_submissionResultJson result,
        fun _ => (utf8_submissionResultJson result).mpr (utf8_resultFromJson hread),
        by simp +decide [submissionResultJson], ?_⟩
      exact direct_content 200 (submissionResultJson result)
  | none =>
    dsimp only
    rw [direct_bind, getStatus_direct]
    cases store.live now (statusKey id) with
    | none => rfl
    | some v =>
      refine ⟨Json.null |>.set "submission_id" (.str id)
        |>.set "verdict" (.str (verdictToString (verdictFromString v.text))),
        plain_set (plain_set plain_null plain_str) plain_str, fun hid => ?_, by simp +decide, ?_⟩
      · simp +decide [utf8_objSet_iff, hid, validUtf8_verdictToString]
      · exact direct_content 200 _

end Ocpe
