import Ocpe.Api.Reads
import Ocpe.Shared.Keys
import Ocpe.Worker.Stored

/-!
# Whose submissions a user reads

Two states of Redis that differ in the submissions of one user only (`SameButFor`), and
what another user is answered in them by the routes that read.  `isolated_iff`: the
answers are the same unless the request is for one of these submissions by its id, or
the two users share a history key.
-/

namespace Ocpe

open Lib Redis Prog RedisClient AuthService ApiServer

variable {cfg : Config} {env : Surroundings} {now : Nat} {store store' : Store}

/-- The stores differ only in the submissions `ids` of the user `v`: in their results,
their statuses, and the user's history. -/
def SameButFor (v : Bytes) (ids : Set Bytes) (store store' : Store) : Prop :=
  ∀ k, k ≠ userSubsKey v → (∀ id ∈ ids, k ≠ resultKey id ∧ k ≠ statusKey id) →
    store' k = store k

/-- What the handler of the request responds in a state. -/
def responseIn (cfg : Config) (env : Surroundings) (now : Nat) (store : Store) (request : Request) :
    Except Exn Response :=
  (Talk.direct now store (handle cfg env request)).2

def Request.ReadsWith (authorization : Option Bytes) : Request → Prop
  | .me a => a = authorization
  | .submissions a => a = authorization
  | .submission a _ => a = authorization
  | _ => False

def AuthenticatedAs (now : Nat) (store : Store) (authorization : Option Bytes) (u : Bytes) : Prop :=
  Talk.direct now store (requireAuth authorization) = (store, .ok (.ok u))

/-- The request of `u` is for a submission of `v`, or for a history that `u` and `v`
have under one key. -/
def Request.Concerns (u v : Bytes) (ids : Set Bytes) : Request → Prop
  | .submissions _ => userSubsKey u = userSubsKey v
  | .submission _ id => ∃ i ∈ ids, cstr i = cstr id
  | _ => False

/-! ### Reading the same -/

section Same

variable {v : Bytes} {ids : Set Bytes}

theorem connect_readsSame : Wire.ReadsSame store store' .connect := ⟨rfl, fun _ h => nomatch h⟩

theorem get_readsSame {key : Bytes} (h : store' key = store key) :
    (execCommand (.get key)).Issues (Wire.ReadsSame store store') :=
  execCommand_issues ⟨rfl, fun c hc => by cases hc; exact h⟩ connect_readsSame

theorem SameButFor.token (h : SameButFor v ids store store') (token : Bytes) :
    store' (tokenKey token) = store (tokenKey token) :=
  h _ (ne_of_take (take_tokenKey _) (take_userSubsKey _) (by decide)) fun id _ =>
    ⟨ne_of_take (take_tokenKey _) (take_resultKey _) (by decide),
      ne_of_take (take_tokenKey _) (take_statusKey _) (by decide)⟩

theorem SameButFor.result (h : SameButFor v ids store store') {id : Bytes}
    (hid : ∀ i ∈ ids, cstr i ≠ cstr id) :
    store' (resultKey id) = store (resultKey id) ∧ store' (statusKey id) = store (statusKey id) := by
  constructor
  · refine h _ (ne_of_take (take_resultKey _) (take_userSubsKey _) (by decide)) fun i hi =>
      ⟨fun he => hid i hi (resultKey_inj.mp he).symm, ?_⟩
    exact ne_of_take (take_resultKey _) (take_statusKey _) (by decide)
  · refine h _ (ne_of_take (take_statusKey _) (take_userSubsKey _) (by decide)) fun i hi =>
      ⟨?_, fun he => hid i hi (statusKey_inj.mp he).symm⟩
    exact ne_of_take (take_statusKey _) (take_resultKey _) (by decide)

theorem SameButFor.subs (h : SameButFor v ids store store') {u : Bytes}
    (hu : userSubsKey u ≠ userSubsKey v) : store' (userSubsKey u) = store (userSubsKey u) :=
  h _ hu fun id _ =>
    ⟨ne_of_take (take_userSubsKey _) (take_resultKey _) (by decide),
      ne_of_take (take_userSubsKey _) (take_statusKey _) (by decide)⟩

theorem requireAuth_readsSame (h : SameButFor v ids store store') (authorization : Option Bytes) :
    (requireAuth authorization).Issues (Wire.ReadsSame store store') := by
  unfold requireAuth validateToken
  split
  · trivial
  · refine issues_bind ?_ fun username => by split <;> trivial
    split
    · trivial
    · exact issues_bind (get_readsSame (h.token _)) fun r => by split <;> trivial

theorem getResult_readsSame {id : Bytes} (h : store' (resultKey id) = store (resultKey id)) :
    (getResult cfg.format id).Issues (Wire.ReadsSame store store') := by
  refine issues_bind (get_readsSame h) fun r => ?_
  split
  · trivial
  · trivial
  · exact issues_bind (json_issues _) fun _ => trivial

theorem getStatus_readsSame {id : Bytes} (h : store' (statusKey id) = store (statusKey id)) :
    (getStatus id).Issues (Wire.ReadsSame store store') := by
  refine issues_bind (get_readsSame h) fun r => ?_
  split <;> trivial

theorem submissionEntries_readsSame {l : List Bytes}
    (h : ∀ id ∈ l, store' (resultKey id) = store (resultKey id) ∧
      store' (statusKey id) = store (statusKey id)) :
    (submissionEntries cfg l).Issues (Wire.ReadsSame store store') := by
  induction l with
  | nil => trivial
  | cons id l ih =>
    obtain ⟨hresult, hstatus⟩ := h id List.mem_cons_self
    refine issues_bind (issues_bind (getResult_readsSame hresult) fun r => ?_) fun _ =>
      issues_bind (ih fun id hid => h id (List.mem_cons_of_mem _ hid)) fun _ => trivial
    split
    · trivial
    · refine issues_bind (getStatus_readsSame hstatus) fun r => ?_
      split <;> trivial

theorem respond_readsSame (status : Nat) (j : Json) :
    (respond cfg status j).Issues (Wire.ReadsSame store store') :=
  issues_bind (json_issues _) fun _ => trivial

theorem AuthenticatedAs.same {authorization : Option Bytes} {u : Bytes}
    (hauth : AuthenticatedAs now store authorization u) (h : SameButFor v ids store store') :
    AuthenticatedAs now store' authorization u := by
  have hagree := @direct_agree _ now _ _ _ (requireAuth_readsSame h authorization)
  have hreads := @direct_reads _ now store' _
    ((requireAuth_readsSame h authorization).mono fun _ hop => hop.1)
  rw [hauth] at hagree
  exact Prod.ext hreads hagree

end Same

/-! ### The routes -/

section Routes

variable {u v : Bytes} {ids : Set Bytes} {authorization : Option Bytes}

theorem me_direct (hauth : AuthenticatedAs now store authorization u) :
    Talk.direct now store (getMe cfg authorization) =
      Talk.direct now store (respond cfg 200 (Json.null.set "username" (.str u))) := by
  rw [getMe, direct_bind, hauth]

theorem submissions_direct (hauth : AuthenticatedAs now store authorization u) :
    Talk.direct now store (getSubmissions cfg authorization) =
      Talk.direct now store (submissionEntries cfg (listedIds now store u) >>= fun entries =>
        respond cfg 200 (.arr entries)) := by
  rw [getSubmissions, direct_bind, hauth]
  dsimp only
  rw [direct_bind, getUserSubmissions_direct]

theorem submission_direct (hauth : AuthenticatedAs now store authorization u) (id : Bytes) :
    Talk.direct now store (getSubmission cfg authorization id) =
      Talk.direct now store (getResult cfg.format id >>= fun result =>
        match result with
        | some result => do
          return { content := ← Talk.json (submissionResultToJson cfg.format result) }
        | none => do
          match ← getStatus id with
          | some status =>
            respond cfg 200
              (Json.null |>.set "submission_id" (.str id)
                |>.set "verdict" (.str (verdictToString status)))
          | none => return errorResponse 404 "submission not found") := by
  rewrite [getSubmission, direct_bind, hauth]
  rfl

/-- **What the user reads is the same** in both states. -/
theorem responseIn_same {request : Request} (hroute : request.ReadsWith authorization)
    (hauth : AuthenticatedAs now store authorization u)
    (hown : ∀ id ∈ listedIds now store u, ∀ i ∈ ids, cstr i ≠ cstr id)
    (hnot : ¬ request.Concerns u v ids) (hsame : SameButFor v ids store store') :
    responseIn cfg env now store' request = responseIn cfg env now store request := by
  have hauth' := hauth.same hsame
  cases request with
  | me a =>
    obtain rfl : a = authorization := hroute
    simp only [responseIn, handle, me_direct hauth, me_direct hauth']
    exact direct_agree (respond_readsSame _ _)
  | submissions a =>
    obtain rfl : a = authorization := hroute
    have hlisted : listedIds now store' u = listedIds now store u := by
      rw [listedIds, listedIds, Store.live, Store.live, hsame.subs hnot]
    simp only [responseIn, handle, submissions_direct hauth, submissions_direct hauth', hlisted]
    refine direct_agree (issues_bind (submissionEntries_readsSame fun id hid => ?_) fun _ =>
      respond_readsSame _ _)
    exact hsame.result (hown id hid)
  | submission a id =>
    obtain rfl : a = authorization := hroute
    obtain ⟨hresult, hstatus⟩ := hsame.result fun i hi heq => hnot ⟨i, hi, heq⟩
    simp only [responseIn, handle, submission_direct hauth, submission_direct hauth']
    refine direct_agree (issues_bind (getResult_readsSame hresult) fun result => ?_)
    cases result with
    | some result => exact issues_bind (json_issues _) fun _ => trivial
    | none =>
      refine issues_bind (getStatus_readsSame hstatus) fun status => ?_
      cases status with
      | some status => exact respond_readsSame _ _
      | none => trivial
  | _ => exact hroute.elim

/-! ### What gives a submission away -/

theorem sameButFor_put {k : Bytes} {e : Option Entry}
    (hk : k = userSubsKey v ∨ ∃ i ∈ ids, k = resultKey i ∨ k = statusKey i)
    (h : SameButFor v ids store store') : SameButFor v ids store (store'.put k e) := by
  intro k' hsubs hids
  have hne : k' ≠ k := by
    rintro rfl
    rcases hk with hk | ⟨i, hi, hk | hk⟩
    · exact hsubs hk
    · exact (hids i hi).1 hk
    · exact (hids i hi).2 hk
  rw [Store.put_of_ne _ _ hne]
  exact h k' hsubs hids

theorem sameButFor_refl : SameButFor v ids store store := fun _ _ _ => rfl

theorem submission_told {id : Bytes} {store₁ store₂ : Store}
    (hauth₁ : AuthenticatedAs now store₁ authorization u)
    (hauth₂ : AuthenticatedAs now store₂ authorization u)
    (hnone : known cfg.format now store₁ id = .ok none)
    (hpending : known cfg.format now store₂ id = .ok (some .pending)) :
    responseIn cfg env now store₁ (.submission authorization id) ≠
      responseIn cfg env now store₂ (.submission authorization id) := by
  intro heq
  have h₁ := @getSubmission_direct cfg _ _ _ _ id hauth₁
  have h₂ := @getSubmission_direct cfg _ _ _ _ id hauth₂
  rw [hnone] at h₁
  rw [hpending] at h₂
  obtain ⟨j, -, -, -, h₂⟩ := h₂
  simp only [responseIn, handle, h₁, h₂] at heq
  cases hdump : cfg.format.dumpText j with
  | error e => rw [hdump] at heq; cases heq
  | ok content =>
    rw [hdump] at heq
    have hstatus := congrArg Response.status (Except.ok.inj heq)
    cases hstatus

theorem submissions_told {store₁ store₂ : Store} {id : Bytes}
    (hauth₁ : AuthenticatedAs now store₁ authorization u)
    (hauth₂ : AuthenticatedAs now store₂ authorization u)
    (hnone : listedIds now store₁ u = []) (hone : listedIds now store₂ u = [id]) :
    responseIn cfg env now store₁ (.submissions authorization) ≠
      responseIn cfg env now store₂ (.submissions authorization) := by
  intro heq
  simp only [responseIn, handle, submissions_direct hauth₁, submissions_direct hauth₂, hnone,
    hone] at heq
  obtain ⟨b, hb⟩ := cfg.format.exists_dumpText (j := .arr []) (by simp)
  have hempty : Talk.direct now store₁ (submissionEntries cfg [] >>= fun entries =>
      respond cfg 200 (.arr entries)) = (store₁, .ok ⟨200, b⟩) := by
    refine (direct_content 200 (.arr [])).trans ?_
    rw [hb]
    rfl
  rw [hempty, direct_bind] at heq
  have hentries : Talk.direct now store₂ (submissionEntries cfg [id]) =
      Talk.direct now store₂ (submissionEntry cfg id >>= fun entry => Pure.pure [entry]) := rfl
  have hentry := @submissionEntry_direct cfg now store₂ id
  rw [hentries, direct_bind] at heq
  cases hknown : known cfg.format now store₂ id with
  | error e =>
    simp only [hknown] at hentry
    rw [hentry] at heq
    cases heq
  | ok v =>
    simp only [hknown] at hentry
    obtain ⟨entry, hdirect, hplain, -, -, -⟩ := hentry
    rw [hdirect] at heq
    have hcontent := @direct_content cfg now store₂ 200 (.arr [entry])
    have heq' : Except.ok (⟨200, b⟩ : Response) =
        (((cfg.format.dumpText (.arr [entry])).map fun content => ⟨200, content⟩).mapError
          Exn.json) := heq.trans (congrArg Prod.snd hcontent)
    cases hdump : cfg.format.dumpText (.arr [entry]) with
    | error e => rw [hdump] at heq'; cases heq'
    | ok b' =>
      rw [hdump] at heq'
      cases heq'
      have hparse := cfg.format.parseText_dumpText (j := .arr [entry]) (by simpa using hplain) hdump
      rw [cfg.format.parseText_dumpText (by simp) hb] at hparse
      cases hparse

/-- **Whose submissions a user reads**: in two states that differ only in submissions of
`v`, none of which is in the history of `u`, every request of `u` gets the same
response, unless it asks for one of these submissions by its id, or for a history that
the two users share. -/
theorem isolated_iff {request : Request} (hroute : request.ReadsWith authorization)
    (hauth : AuthenticatedAs now store authorization u)
    (hown : ∀ id ∈ listedIds now store u, ∀ i ∈ ids, cstr i ≠ cstr id) :
    (∀ store', SameButFor v ids store store' →
      responseIn cfg env now store' request = responseIn cfg env now store request) ↔
        ¬ request.Concerns u v ids := by
  constructor
  · intro hall hconcerns
    cases request with
    | submissions a =>
      obtain rfl : a = authorization := hroute
      have hkey : userSubsKey u = userSubsKey v := hconcerns
      have h₁ : SameButFor v ids store (store.put (userSubsKey v) none) :=
        sameButFor_put (.inl rfl) sameButFor_refl
      have h₂ : SameButFor v ids store (store.put (userSubsKey v) (some ⟨.list ["a"], none⟩)) :=
        sameButFor_put (.inl rfl) sameButFor_refl
      refine @submissions_told cfg env _ _ _ _ _ "a" (hauth.same h₁) (hauth.same h₂)
        ?_ ?_ ((hall _ h₁).trans (hall _ h₂).symm)
      · simp [listedIds, hkey, Store.live]
      · have hlive : Store.live (store.put (userSubsKey v) (some ⟨.list ["a"], none⟩)) now
            (userSubsKey v) = some (.list ["a"]) := by simp [Store.live, Entry.Live]
        rw [listedIds, hkey, hlive]
        rfl
    | submission a id =>
      obtain rfl : a = authorization := hroute
      obtain ⟨i, hi, hid⟩ := hconcerns
      have hresult : resultKey id = resultKey i := resultKey_inj.mpr hid.symm
      have hstatus : statusKey id = statusKey i := statusKey_inj.mpr hid.symm
      have hput : ∀ e, SameButFor v ids store
          ((store.put (resultKey id) none).put (statusKey id) e) := fun e =>
        sameButFor_put (.inr ⟨i, hi, .inr hstatus⟩)
          (sameButFor_put (.inr ⟨i, hi, .inl hresult⟩) sameButFor_refl)
      have hne : resultKey id ≠ statusKey id :=
        ne_of_take (take_resultKey _) (take_statusKey _) (by decide)
      refine @submission_told cfg env _ _ _ _ _ _ (hauth.same (hput none))
        (hauth.same (hput (some ⟨.str (verdictToString .pending), none⟩))) ?_ ?_
        ((hall _ (hput _)).trans (hall _ (hput _)).symm)
      · simp [known, Store.live, hne]
      · have htext : (Value.str (verdictToString .pending)).text = verdictToString .pending := rfl
        simp [known, Store.live, Entry.Live, hne, htext]
    | _ => exact hconcerns
  · intro hnot store' hsame
    exact responseIn_same hroute hauth hown hnot hsame

end Routes

/-! ### Ann and Bob -/

def annStore : Store :=
  Store.put (fun _ => none) (tokenKey (zeros 64).text) (some ⟨.str "ann", none⟩)

def annHeader : Option Bytes := some (bytes "Bearer " ++ (zeros 64).text)

theorem annHeader_auth {now : Nat} {store : Store}
    (hstore : store (tokenKey (zeros 64).text) = some ⟨.str "ann", some (tokenTtlSec * 1000)⟩)
    (hnow : now ≤ tokenTtlSec * 1000) : AuthenticatedAs now store annHeader "ann" := by
  have htoken : (zeros 64).text ≠ [] := by decide
  have hlive : store.live now (tokenKey (zeros 64).text) = some (.str "ann") := by
    rw [Store.live_until hstore, if_pos hnow]
  show Talk.direct _ _ (requireAuth (some _)) = _
  rw [requireAuth, extractBearerToken_bearer htoken, direct_bind, validateToken_direct htoken,
    hlive]
  rfl

theorem annStore_auth : AuthenticatedAs 0 annStore annHeader "ann" := rfl

def bobResult : SubmissionResult :=
  { submissionId := (zeros 32).text, problemId := "a", username := "bob", verdict := .wrongAnswer }

def bobStored : Bytes := JsonText.print (submissionResultJson bobResult)

theorem bobResult_stored : submissionResultToJson textConfig.format bobResult = .ok bobStored :=
  dumpText_jsonText ((utf8_submissionResultJson bobResult).mpr
    (by unfold SubmissionResult.Utf8 TestCaseResult.Utf8; decide))

def bobStore : Store := annStore.put (resultKey (zeros 32).text) (some ⟨.str bobStored, none⟩)

theorem bobStore_same : SameButFor "bob" {(zeros 32).text} annStore bobStore :=
  sameButFor_put (.inr ⟨_, rfl, .inl rfl⟩) sameButFor_refl

/-- Ann has a submission of her own in her history. -/
def annListed : Store := annStore.put (userSubsKey "ann")
  (some ⟨.list [(HexString.replicate 32 49 one_isHex).text], none⟩)

theorem annListed_auth : AuthenticatedAs 0 annListed annHeader "ann" := rfl

theorem isolated_iff_submissions :
    listedIds 0 annListed "ann" = [(HexString.replicate 32 49 one_isHex).text] ∧
      responseIn textConfig zeroSurroundings 0
          (annListed.put (resultKey (zeros 32).text) (some ⟨.str bobStored, none⟩))
          (.submissions annHeader) =
        responseIn textConfig zeroSurroundings 0 annListed (.submissions annHeader) := by
  have hlisted : listedIds 0 annListed "ann" = [(HexString.replicate 32 49 one_isHex).text] := rfl
  refine ⟨hlisted, ?_⟩
  have hown : ∀ id ∈ listedIds 0 annListed "ann", ∀ i ∈ ({(zeros 32).text} : Set Bytes),
      cstr i ≠ cstr id := by
    rintro id hid i rfl
    rw [hlisted, List.mem_singleton] at hid
    subst hid
    decide
  have hkeys : userSubsKey "ann" ≠ userSubsKey "bob" := by decide
  exact (@isolated_iff _ _ _ _ _ "bob" _ annHeader (.submissions annHeader) rfl annListed_auth
    hown).mpr hkeys _ (sameButFor_put (.inr ⟨_, rfl, .inl rfl⟩) sameButFor_refl)

/-- **Ann reads Bob's result**: the two states differ in Bob's submission only, and her
request is answered 404 in the one and with his result in the other. -/
theorem ann_reads_bobs :
    SameButFor "bob" {(zeros 32).text} annStore bobStore ∧
      AuthenticatedAs 0 annStore annHeader "ann" ∧ AuthenticatedAs 0 bobStore annHeader "ann" ∧
      responseIn textConfig zeroSurroundings 0 annStore (.submission annHeader (zeros 32).text) =
        .ok (errorResponse 404 "submission not found") ∧
      responseIn textConfig zeroSurroundings 0 bobStore (.submission annHeader (zeros 32).text) =
        .ok ⟨200, bobStored⟩ := by
  refine ⟨bobStore_same, annStore_auth, annStore_auth.same bobStore_same, rfl, ?_⟩
  have hresult : bobStore.live 0 (resultKey (zeros 32).text) = some (.str bobStored) := by
    simp [bobStore, Store.live, Entry.Live]
  have hread : submissionResultFromJson textConfig.format bobStored = .ok bobResult :=
    resultFromJson_toJson bobResult_stored
  have htext : (Value.str bobStored).text = bobStored := rfl
  simp only [responseIn, handle, submission_direct (annStore_auth.same bobStore_same)]
  rw [direct_bind, getResult_direct, hresult]
  dsimp only
  rw [htext, hread]
  show (Talk.direct 0 _ (Talk.json (textConfig.format.dumpText (submissionResultJson bobResult)) >>=
    fun content => Pure.pure (⟨200, content⟩ : Response))).2 = _
  have hdump : textConfig.format.dumpText (submissionResultJson bobResult) = .ok bobStored :=
    bobResult_stored
  rw [direct_content, hdump]
  rfl

end Ocpe
