import Ocpe.Lib.Run
import Ocpe.Shared.Direct
import Ocpe.System.Sends
import Ocpe.Worker.Stored

/-!
# The account table

Runs that go request by request: calls of `register_user`, `login` and
`validate_token`, the other routes of the API, iterations of the workers, and time.
Every step runs alone against Redis (`Talk.direct`).  The state carries the store and,
beside it, what the callers were told: the accounts that were registered and the
sessions that were issued.

`Refines` relates the two: under a user's key is the credential of the registered
password, under a token's key its user with the end of its seven days.
`accounts_refine` reads the three calls off it.
-/

namespace Ocpe.Accounts

open Lib Redis RedisClient AuthService

/-- A session that `login` returned, and when. -/
structure Issued where
  token : Bytes
  username : Bytes
  time : Nat
  deriving DecidableEq, Repr

inductive Op
  | tick (ms : Nat)
  | registerUser (salt : HexString 32) (username password : Bytes)
  | login (token : HexString 64) (username password : Bytes)
  | validateToken (token : Bytes)
  /-- a route that is not of the accounts -/
  | request (request : Request) (env : Surroundings)
  | iteration (m : Machine)

structure Service where
  now : Nat := 0
  store : Store := fun _ => none
  /-- The names and passwords for which `register_user` returned true. -/
  accounts : List (Bytes × Bytes) := []
  /-- What `login` returned. -/
  issued : List Issued := []

section Step

variable (cfg : Config)

def step (s : Service) : Op → Option Service
  | .tick ms => some { s with now := s.now + ms }
  | .registerUser salt username password =>
    match Talk.direct s.now s.store (AuthService.registerUser cfg.sha256 salt username password) with
    | (store, .ok (.ok ())) =>
      some { s with store, accounts := s.accounts ++ [(username, password)] }
    | (store, _) => some { s with store }
  | .login token username password =>
    match Talk.direct s.now s.store (AuthService.login cfg.sha256 token username password) with
    | (store, .ok (some session)) =>
      some { s with store, issued := s.issued ++ [⟨session.token, session.username, s.now⟩] }
    | (store, _) => some { s with store }
  | .validateToken token =>
    some { s with store := (Talk.direct s.now s.store (AuthService.validateToken token)).1 }
  | .request request env =>
    if request.OfAccounts then none
    else
      some { s with store := (Talk.direct s.now s.store (ApiServer.handle cfg env request)).1 }
  | .iteration m =>
    some { s with store := (Talk.direct s.now s.store (WorkerPool.iteration cfg m)).1 }

def Op.token? : Op → Option Bytes
  | .login token _ _ => some token.text
  | _ => none

def DistinctTokens (ops : List Op) : Prop := (ops.filterMap Op.token?).Nodup

/-- `hash_password` is collision-free. -/
def CollisionFree : Prop :=
  ∀ password password' salt, hashPassword cfg.sha256 password salt =
    hashPassword cfg.sha256 password' salt → password = password'

/-- `register_user` would return true. -/
def Registers (s : Service) (salt : HexString 32) (username password : Bytes) : Prop :=
  (Talk.direct s.now s.store
    (AuthService.registerUser cfg.sha256 salt username password)).2 = .ok (.ok ())

/-- `login` would return a session. -/
def LogsIn (s : Service) (token : HexString 64) (username password : Bytes) : Prop :=
  ∃ session, (Talk.direct s.now s.store
    (AuthService.login cfg.sha256 token username password)).2 = .ok (some session)

def Op.Creates : Op → Prop
  | .registerUser .. => True
  | .login .. => True
  | _ => False

/-- What `validate_token` would return. -/
def validates (s : Service) (token : Bytes) : Except Exn (Option Bytes) :=
  (Talk.direct s.now s.store (AuthService.validateToken token)).2

/-! ### The relation -/

/-- What is under the key of a name: nothing, or the credential of its password. -/
def HoldsUser (s : Service) (name : Bytes) : Prop :=
  (s.store (userKey name) = none ∧ ∀ p, (name, p) ∉ s.accounts) ∨
    ∃ salt p, s.store (userKey name) = some ⟨.str (credential cfg.sha256 salt p), none⟩ ∧
      ∀ q, (name, q) ∈ s.accounts ↔ q = p

/-- What is under the key of a token: nothing, or the user it was issued to, for seven
days. -/
def HoldsToken (s : Service) (token : Bytes) : Prop :=
  (s.store (tokenKey token) = none ∧ ∀ i ∈ s.issued, i.token ≠ token) ∨
    ∃ username time,
      s.store (tokenKey token) = some ⟨.str username, some (time + tokenTtlSec * 1000)⟩ ∧
        ∀ i, (i ∈ s.issued ∧ i.token = token) ↔ i = ⟨token, username, time⟩

/-- The store and what the callers were told. -/
structure Refines (s : Service) : Prop where
  user : ∀ name, NulFree name → HoldsUser cfg s name
  token : ∀ token, NulFree token → HoldsToken s token
  length_token : ∀ i ∈ s.issued, i.token.length = 64

end Step

variable {cfg : Config} {s s' : Service}

/-! ### One step -/

theorem userKey_ne_tokenKey (username token : Bytes) : userKey username ≠ tokenKey token :=
  ne_of_take (take_userKey _) (take_tokenKey _) (by decide)

/-- The keys of users and tokens are as before. -/
def SameAccounts (store store' : Store) : Prop :=
  (∀ username, store' (userKey username) = store (userKey username)) ∧
    ∀ token, store' (tokenKey token) = store (tokenKey token)

theorem Refines.same (hs : Refines cfg s) (hstore : SameAccounts s.store s'.store)
    (haccounts : s'.accounts = s.accounts) (hissued : s'.issued = s.issued) : Refines cfg s' := by
  constructor
  · intro name hname
    have := hs.user name hname
    rwa [HoldsUser, ← hstore.1, ← haccounts] at this
  · intro token htoken
    have := hs.token token htoken
    rwa [HoldsToken, ← hstore.2, ← hissued] at this
  · intro i hi
    exact hs.length_token i (hissued ▸ hi)

theorem sameAccounts_refl (store : Store) : SameAccounts store store := ⟨fun _ => rfl, fun _ => rfl⟩

theorem writes_ne {op : Wire} {k : Bytes} (hkey : k.take 10 = bytes "ocpe:user:" ∨ k.take 10 = bytes "ocpe:token")
    (h : op.writes = none ∨ op.writes = some queueKey ∨ (∃ id, op.writes = some (statusKey id)) ∨
      (∃ username, op.writes = some (userSubsKey username)) ∨
        ∃ id, op.writes = some (resultKey id)) : op.writes ≠ some k := by
  intro hwrites
  have hne : ∀ {k' a}, k'.take 10 = a → a ≠ bytes "ocpe:user:" → a ≠ bytes "ocpe:token" → k' ≠ k := by
    intro k' a hk' hu ht
    rcases hkey with hkey | hkey
    · exact ne_of_take hk' hkey hu
    · exact ne_of_take hk' hkey ht
  rcases h with h | h | ⟨id, h⟩ | ⟨username, h⟩ | ⟨id, h⟩ <;> rw [h] at hwrites
  · cases hwrites
  · exact hne take_queueKey (by decide) (by decide) (Option.some.inj hwrites)
  · exact hne (take_statusKey _) (by decide) (by decide) (Option.some.inj hwrites)
  · exact hne (take_userSubsKey _) (by decide) (by decide) (Option.some.inj hwrites)
  · exact hne (take_resultKey _) (by decide) (by decide) (Option.some.inj hwrites)

/-- **The other routes leave the accounts alone.** -/
theorem sameAccounts_request {now : Nat} {store : Store} {request : Request} {env : Surroundings}
    (h : ¬ request.OfAccounts) :
    SameAccounts store (Talk.direct now store (ApiServer.handle cfg env request)).1 := by
  have hframe : ∀ k : Bytes, (k.take 10 = bytes "ocpe:user:" ∨ k.take 10 = bytes "ocpe:token") →
      (Talk.direct now store (ApiServer.handle cfg env request)).1 k = store k := by
    intro k hk
    refine direct_frame ((handle_writes h).mono fun op hop => writes_ne hk ?_)
    rcases hop with hop | hop | hop | hop
    · exact .inl hop
    · exact .inr (.inl hop)
    · exact .inr (.inr (.inl hop))
    · exact .inr (.inr (.inr (.inl hop)))
  exact ⟨fun username => hframe _ (.inl (take_userKey _)),
    fun token => hframe _ (.inr (take_tokenKey _))⟩

/-- **The workers leave the accounts alone.** -/
theorem sameAccounts_iteration {now : Nat} {store : Store} {m : Machine} :
    SameAccounts store (Talk.direct now store (WorkerPool.iteration cfg m)).1 := by
  have hframe : ∀ k : Bytes, (k.take 10 = bytes "ocpe:user:" ∨ k.take 10 = bytes "ocpe:token") →
      (Talk.direct now store (WorkerPool.iteration cfg m)).1 k = store k := by
    intro k hk
    refine direct_frame ((iteration_sends cfg m).mono fun op hop => writes_ne hk ?_)
    cases hop with
    | connect => exact .inl rfl
    | popJob => exact .inr (.inl rfl)
    | setStatus id v => exact .inr (.inr (.inl ⟨id, rfl⟩))
    | setResult id payload => exact .inr (.inr (.inr (.inr ⟨id, rfl⟩)))
  exact ⟨fun username => hframe _ (.inl (take_userKey _)),
    fun token => hframe _ (.inr (take_tokenKey _))⟩

/-- **One more account.** -/
theorem Refines.register (hs : Refines cfg s) {salt : HexString 32} {username password : Bytes}
    (hname : NulFree username) (hfree : s.store (userKey username) = none) :
    Refines cfg { s with
      store := s.store.put (userKey username) (some ⟨.str (credential cfg.sha256 salt password), none⟩)
      accounts := s.accounts ++ [(username, password)] } := by
  have hnew : ∀ p, (username, p) ∉ s.accounts := by
    rcases hs.user username hname with ⟨-, hnone⟩ | ⟨salt', p, hstore, -⟩
    · exact hnone
    · rw [hfree] at hstore
      cases hstore
  constructor
  · intro name hfreeName
    by_cases hsame : name = username
    · subst hsame
      refine .inr ⟨salt, password, by simp, fun q => ?_⟩
      simp [hnew]
    · have hkey : userKey name ≠ userKey username := by
        rw [ne_eq, userKey_inj, cstr_eq_self hfreeName, cstr_eq_self hname]
        exact hsame
      have hold := hs.user name hfreeName
      simpa [HoldsUser, Store.put_of_ne _ _ hkey, hsame] using hold
  · intro token htoken
    have hold := hs.token token htoken
    have hkey : tokenKey token ≠ userKey username := (userKey_ne_tokenKey _ _).symm
    simpa [HoldsToken, Store.put_of_ne _ _ hkey] using hold
  · exact hs.length_token

/-- **One more session.** -/
theorem Refines.issue (hs : Refines cfg s) {token : HexString 64} {username : Bytes}
    (hfresh : ∀ i ∈ s.issued, i.token ≠ token.text) :
    Refines cfg { s with
      store := s.store.put (tokenKey token.text)
        (some ⟨.str username, some (s.now + tokenTtlSec * 1000)⟩)
      issued := s.issued ++ [⟨token.text, username, s.now⟩] } := by
  constructor
  · intro name hname
    have hold := hs.user name hname
    simpa [HoldsUser, Store.put_of_ne _ _ (userKey_ne_tokenKey name token.text)] using hold
  · intro t ht
    by_cases hsame : t = token.text
    · subst hsame
      refine .inr ⟨username, s.now, by simp, fun i => ?_⟩
      constructor
      · rintro ⟨hi, htoken⟩
        rcases List.mem_append.mp hi with hi | hi
        · exact absurd htoken (hfresh i hi)
        · exact List.mem_singleton.mp hi
      · rintro rfl
        exact ⟨by simp, rfl⟩
    · have hkey : tokenKey t ≠ tokenKey token.text := by
        rw [ne_eq, tokenKey_inj, cstr_eq_self ht, cstr_eq_self token.nulFree]
        exact hsame
      have hother : ∀ i, (i ∈ s.issued ++ [⟨token.text, username, s.now⟩] ∧ i.token = t) ↔
          (i ∈ s.issued ∧ i.token = t) := by
        intro i
        rw [List.mem_append, List.mem_singleton]
        constructor
        · rintro ⟨hi | rfl, htoken⟩
          · exact ⟨hi, htoken⟩
          · exact absurd htoken.symm hsame
        · rintro ⟨hi, htoken⟩
          exact ⟨.inl hi, htoken⟩
      rcases hs.token t ht with ⟨hnone, hno⟩ | ⟨u, time, hstore, hiff⟩
      · refine .inl ⟨(Store.put_of_ne _ _ hkey).trans hnone, fun i hi htoken => ?_⟩
        exact hno i ((hother i).mp ⟨hi, htoken⟩).1 htoken
      · exact .inr ⟨u, time, (Store.put_of_ne _ _ hkey).trans hstore,
          fun i => (hother i).trans (hiff i)⟩
  · intro i hi
    rcases List.mem_append.mp hi with hi | hi
    · exact hs.length_token i hi
    · rw [List.mem_singleton.mp hi]
      exact token.length_text

/-- **One step keeps the relation**, when the token it draws is new. -/
theorem refines_step {op : Op} (h : step cfg s op = some s') (hs : Refines cfg s)
    (hfresh : ∀ token, op.token? = some token → ∀ i ∈ s.issued, i.token ≠ token) :
    Refines cfg s' := by
  cases op with
  | tick ms => cases h; exact hs.same (sameAccounts_refl _) rfl rfl
  | registerUser salt username password =>
    simp only [step] at h
    cases hcheck : checkRegistration username password with
    | some error =>
      rw [registerUser_direct_refused hcheck] at h
      cases h
      exact hs.same (sameAccounts_refl _) rfl rfl
    | none =>
      have hname : NulFree username := (checkRegistration_eq_none.mp hcheck).1.nulFree
      rw [registerUser_direct hcheck] at h
      rcases hs.user username hname with ⟨hnone, -⟩ | ⟨salt', p, hstore, -⟩
      · have hlive : s.store.live s.now (userKey username) = none := by simp [Store.live, hnone]
        rw [hlive] at h
        cases h
        exact hs.register hname hnone
      · rw [Store.live_forever hstore] at h
        cases h
        exact hs.same (sameAccounts_refl _) rfl rfl
  | login token username password =>
    simp only [step, login_direct] at h
    cases hlive : s.store.live s.now (userKey username) with
    | none =>
      rw [hlive] at h
      cases h
      exact hs.same (sameAccounts_refl _) rfl rfl
    | some v =>
      cases v with
      | list l =>
        rw [hlive] at h
        cases h
        exact hs.same (sameAccounts_refl _) rfl rfl
      | str stored =>
        rw [hlive] at h
        dsimp only at h
        cases hfits : passwordFits cfg.sha256 stored password with
        | false =>
          rw [hfits] at h
          cases h
          exact hs.same (sameAccounts_refl _) rfl rfl
        | true =>
          rw [hfits] at h
          cases h
          exact hs.issue (hfresh _ rfl)
  | validateToken token =>
    simp only [step] at h
    cases h
    by_cases htoken : token = []
    · subst htoken
      exact hs.same (sameAccounts_refl _) rfl rfl
    · rw [validateToken_direct htoken]
      exact hs.same (sameAccounts_refl _) rfl rfl
  | request request env =>
    simp only [step] at h
    split at h
    · cases h
    · next hother =>
      cases h
      exact hs.same (sameAccounts_request hother) rfl rfl
  | iteration m =>
    cases h
    exact hs.same sameAccounts_iteration rfl rfl

theorem issued_step {op : Op} (h : step cfg s op = some s') {i : Issued} (hi : i ∈ s'.issued) :
    i ∈ s.issued ∨ op.token? = some i.token := by
  cases op with
  | login token username password =>
    simp only [step, login_direct] at h
    split at h
    · next store session heq =>
      cases h
      rcases List.mem_append.mp hi with hi | hi
      · exact .inl hi
      · obtain rfl := List.mem_singleton.mp hi
        right
        split at heq
        · split at heq
          · cases heq
            rfl
          · cases heq
        · cases heq
    · cases h
      exact .inl hi
  | registerUser salt username password =>
    simp only [step] at h
    split at h <;> cases h <;> exact .inl hi
  | request request env =>
    simp only [step] at h
    split at h
    · cases h
    · cases h; exact .inl hi
  | tick ms => cases h; exact .inl hi
  | validateToken token => cases h; exact .inl hi
  | iteration m => cases h; exact .inl hi

/-- **The relation holds in every run**, the generated tokens being distinct. -/
theorem refines_of_run {ops : List Op} (hrun : run (step cfg) {} ops = some s)
    (hdistinct : DistinctTokens ops) : Refines cfg s := by
  have hkept : (∀ i ∈ s.issued, i.token ∈ ops.filterMap Op.token?) ∧
      (DistinctTokens ops → Refines cfg s) := by
    refine run_invariant_hist
      (fun ops (s : Service) => (∀ i ∈ s.issued, i.token ∈ ops.filterMap Op.token?) ∧
        (DistinctTokens ops → Refines cfg s)) hrun (fun _ _ => trivial) ⟨fun i hi => ?_, fun _ => ?_⟩ ?_
    · cases hi
    · exact ⟨fun _ _ => .inl ⟨rfl, fun _ => by simp⟩, fun _ _ => .inl ⟨rfl, fun _ => by simp⟩,
        fun i hi => by cases hi⟩
    · rintro hist m op m' - ⟨hdrawn, hrefines⟩ - hstep
      constructor
      · intro i hi
        rw [List.filterMap_append, List.mem_append]
        rcases issued_step hstep hi with hold | hnew
        · exact .inl (hdrawn i hold)
        · exact .inr (List.mem_filterMap.mpr ⟨op, by simp, hnew⟩)
      · intro hnodup
        rw [DistinctTokens, List.filterMap_append] at hnodup
        obtain ⟨hhist, -, hdisjoint⟩ := List.nodup_append.mp hnodup
        refine refines_step hstep (hrefines hhist) fun token htoken i hi => ?_
        exact hdisjoint _ (hdrawn i hi) _ (List.mem_filterMap.mpr ⟨op, by simp, htoken⟩)
  exact hkept.2 hdistinct

/-! ### The three calls -/

section Calls

variable (hs : Refines cfg s)

include hs

theorem registers_iff {salt : HexString 32} {username password : Bytes}
    (hrule : UsernameRule username) :
    Registers cfg s salt username password ↔
      6 ≤ password.length ∧ ∀ p, (username, p) ∉ s.accounts := by
  unfold Registers
  cases hcheck : checkRegistration username password with
  | some error =>
    have hshort : ¬ 6 ≤ password.length := fun hlen => by
      rw [checkRegistration_eq_none.mpr ⟨hrule, hlen⟩] at hcheck
      cases hcheck
    rw [registerUser_direct_refused hcheck]
    simp [hshort]
  | none =>
    have hlen : 6 ≤ password.length := (checkRegistration_eq_none.mp hcheck).2
    rw [registerUser_direct hcheck]
    rcases hs.user username hrule.nulFree with ⟨hnone, hnew⟩ | ⟨salt', p, hstore, hiff⟩
    · have hlive : s.store.live s.now (userKey username) = none := by simp [Store.live, hnone]
      rw [hlive]
      exact iff_of_true rfl ⟨hlen, hnew⟩
    · rw [Store.live_forever hstore]
      refine iff_of_false (fun h => by cases h) fun h => ?_
      exact h.2 p ((hiff p).mpr rfl)

theorem logsIn_iff (hhash : CollisionFree cfg) {token : HexString 64} {username password : Bytes}
    (hrule : UsernameRule username) :
    LogsIn cfg s token username password ↔ (username, password) ∈ s.accounts := by
  unfold LogsIn
  rw [login_direct]
  rcases hs.user username hrule.nulFree with ⟨hnone, hnew⟩ | ⟨salt, p, hstore, hiff⟩
  · have hlive : s.store.live s.now (userKey username) = none := by simp [Store.live, hnone]
    rw [hlive]
    refine iff_of_false ?_ (hnew password)
    rintro ⟨session, h⟩
    cases h
  · rw [Store.live_forever hstore, hiff]
    dsimp only
    constructor
    · rintro ⟨session, h⟩
      split at h
      · next hfits => exact hhash _ _ _ ((passwordFits_credential_iff _ _ _ _).mp hfits)
      · cases h
    · rintro rfl
      rw [if_pos (passwordFits_credential ..)]
      exact ⟨_, rfl⟩

theorem validates_iff {token : Bytes} (htoken : NulFree token) :
    ∃ answer, validates s token = .ok answer ∧ ∀ username, answer = some username ↔
      ∃ i ∈ s.issued, i.token = token ∧ i.username = username ∧
        s.now ≤ i.time + tokenTtlSec * 1000 := by
  unfold validates
  by_cases hempty : token = []
  · subst hempty
    refine ⟨none, rfl, fun username => iff_of_false (fun h => by cases h) ?_⟩
    rintro ⟨i, hi, htok, -, -⟩
    have hlen := hs.length_token i hi
    rw [htok] at hlen
    cases hlen
  · rw [validateToken_direct hempty]
    refine ⟨_, rfl, fun username => ?_⟩
    rcases hs.token token htoken with ⟨hnone, hno⟩ | ⟨u, time, hstore, hiff⟩
    · have hlive : s.store.live s.now (tokenKey token) = none := by simp [Store.live, hnone]
      rw [hlive]
      refine iff_of_false (fun h => by cases h) ?_
      rintro ⟨i, hi, htok, -, -⟩
      exact hno i hi htok
    · obtain ⟨hmem, htok⟩ := (hiff ⟨token, u, time⟩).mpr rfl
      by_cases hlive : s.now ≤ time + tokenTtlSec * 1000
      · have heq : s.store.live s.now (tokenKey token) = some (.str u) := by
          rw [Store.live_until hstore, if_pos hlive]
        rw [heq]
        constructor
        · intro h
          exact ⟨_, hmem, rfl, Option.some.inj h, hlive⟩
        · rintro ⟨i, hi, htok, rfl, -⟩
          rw [(hiff i).mp ⟨hi, htok⟩]
          rfl
      · have heq : s.store.live s.now (tokenKey token) = none := by
          rw [Store.live_until hstore, if_neg hlive]
        rw [heq]
        refine iff_of_false (fun h => by cases h) ?_
        rintro ⟨i, hi, htok, -, htime⟩
        rw [(hiff i).mp ⟨hi, htok⟩] at htime
        exact hlive htime

end Calls

/-- **No other step touches an account or a session.** -/
theorem sameAccounts_step {op : Op} (h : step cfg s op = some s') (hop : ¬ op.Creates) :
    SameAccounts s.store s'.store := by
  cases op with
  | registerUser salt username password => exact absurd trivial hop
  | login token username password => exact absurd trivial hop
  | tick ms => cases h; exact sameAccounts_refl _
  | validateToken token =>
    cases h
    by_cases htoken : token = []
    · subst htoken
      exact sameAccounts_refl _
    · rw [validateToken_direct htoken]
      exact sameAccounts_refl _
  | request request env =>
    simp only [step] at h
    split at h
    · cases h
    · next hother => cases h; exact sameAccounts_request hother
  | iteration m => cases h; exact sameAccounts_iteration

/-- **The account table**, in every run that goes request by request: `register_user`
succeeds for a name that is free and a password of six bytes, `login` for a name with
its password, and `validate_token` returns the user to whom the token was issued at
most seven days before; no other step touches an account or a session. -/
theorem accounts_refine (hhash : CollisionFree cfg) {ops : List Op}
    (hrun : run (step cfg) {} ops = some s) (hdistinct : DistinctTokens ops) :
    (∀ salt username password, UsernameRule username →
      (Registers cfg s salt username password ↔
        6 ≤ password.length ∧ ∀ p, (username, p) ∉ s.accounts)) ∧
    (∀ token username password, UsernameRule username →
      (LogsIn cfg s token username password ↔ (username, password) ∈ s.accounts)) ∧
    (∀ token, NulFree token → ∃ answer, validates s token = .ok answer ∧
      ∀ username, answer = some username ↔
        ∃ i ∈ s.issued, i.token = token ∧ i.username = username ∧
          s.now ≤ i.time + tokenTtlSec * 1000) ∧
    (∀ op s', step cfg s op = some s' → ¬ op.Creates → SameAccounts s.store s'.store) := by
  have hs := refines_of_run hrun hdistinct
  exact ⟨fun _ _ _ hrule => registers_iff hs hrule, fun _ _ _ hrule => logsIn_iff hs hhash hrule,
    fun _ htoken => validates_iff hs htoken, fun _ _ hstep hop => sameAccounts_step hstep hop⟩

/-! ### The routes of the accounts -/

theorem step_registerUser (s : Service) (salt : HexString 32) (username password : Bytes) :
    ∃ s', step cfg s (.registerUser salt username password) = some s' ∧ s'.now = s.now ∧
      s'.store = (Talk.direct s.now s.store
        (AuthService.registerUser cfg.sha256 salt username password)).1 := by
  simp only [step]
  split
  · next heq => exact ⟨_, rfl, rfl, by rw [heq]⟩
  · next heq => exact ⟨_, rfl, rfl, by rw [heq]⟩

theorem step_login (s : Service) (token : HexString 64) (username password : Bytes) :
    ∃ s', step cfg s (.login token username password) = some s' ∧ s'.now = s.now ∧
      s'.store = (Talk.direct s.now s.store
        (AuthService.login cfg.sha256 token username password)).1 := by
  simp only [step]
  split
  · next heq => exact ⟨_, rfl, rfl, by rw [heq]⟩
  · next heq => exact ⟨_, rfl, rfl, by rw [heq]⟩

theorem respondSession_reads (status : Nat) (failure : Response) (session : Option AuthSession) :
    (match session with
      | none => Pure.pure failure
      | some session =>
        ApiServer.respond cfg status
          (Json.null |>.set "token" (.str session.token)
            |>.set "username" (.str session.username)) : Talk Response).Issues
      fun op => op.writes = none := by
  cases session with
  | none => trivial
  | some session => exact respond_reads _ _

/-- **Every request is a run**: `/auth/register` of the two calls, `/auth/login` of one. -/
theorem request_runs (s : Service) (request : Request) (env : Surroundings) :
    ∃ ops s', run (step cfg) s ops = some s' ∧ s'.now = s.now ∧
      s'.store = (Talk.direct s.now s.store (ApiServer.handle cfg env request)).1 := by
  by_cases hother : request.OfAccounts
  · cases request with
    | register body =>
      simp only [ApiServer.handle, ApiServer.postRegister]
      cases ApiServer.parseBody cfg body with
      | none => exact ⟨[], s, rfl, rfl, rfl⟩
      | some json =>
        simp only [direct_json]
        cases json.valueStr "username" "" with
        | error e => exact ⟨[], s, rfl, rfl, rfl⟩
        | ok username =>
          cases json.valueStr "password" "" with
          | error e => exact ⟨[], s, rfl, rfl, rfl⟩
          | ok password =>
            obtain ⟨s₁, hstep₁, hnow₁, hstore₁⟩ :=
              @step_registerUser cfg s env.salt username password
            have hone : run (step cfg) s [.registerUser env.salt username password] = some s₁ :=
              run_cons_iff.mpr ⟨s₁, hstep₁, rfl⟩
            dsimp only
            rw [direct_bind]
            generalize Talk.direct s.now s.store
              (AuthService.registerUser cfg.sha256 env.salt username password) = called at hstore₁ ⊢
            obtain ⟨store, e | refused | ⟨⟩⟩ := called
            · exact ⟨_, s₁, hone, hnow₁, hstore₁⟩
            · refine ⟨_, s₁, hone, hnow₁, hstore₁.trans ?_⟩
              exact (direct_reads (respond_reads _ _)).symm
            · obtain ⟨s₂, hstep₂, hnow₂, hstore₂⟩ :=
                @step_login cfg s₁ env.token username password
              refine ⟨_, s₂, run_concat_iff.mpr ⟨s₁, hone, hstep₂⟩, hnow₂.trans hnow₁, ?_⟩
              rw [hstore₂, hnow₁, hstore₁]
              exact (direct_bind_reads fun r => respondSession_reads _ _ r).symm
    | login body =>
      simp only [ApiServer.handle, ApiServer.postLogin]
      cases ApiServer.parseBody cfg body with
      | none => exact ⟨[], s, rfl, rfl, rfl⟩
      | some json =>
        simp only [direct_json]
        cases json.valueStr "username" "" with
        | error e => exact ⟨[], s, rfl, rfl, rfl⟩
        | ok username =>
          cases json.valueStr "password" "" with
          | error e => exact ⟨[], s, rfl, rfl, rfl⟩
          | ok password =>
            obtain ⟨s₁, hstep₁, hnow₁, hstore₁⟩ := @step_login cfg s env.token username password
            refine ⟨[.login env.token username password], s₁,
              run_cons_iff.mpr ⟨s₁, hstep₁, rfl⟩, hnow₁, ?_⟩
            rw [hstore₁]
            exact (direct_bind_reads fun r => respondSession_reads _ _ r).symm
    | _ => exact hother.elim
  · exact ⟨[.request request env], _, run_cons_iff.mpr ⟨_, if_neg hother, rfl⟩, rfl, rfl⟩

/-! ### A collision-free hash -/

theorem hexDigit_inj {a b : UInt8} (ha : a < 16) (hb : b < 16) (h : hexDigit a = hexDigit b) :
    a = b := by
  have hall : ∀ a < 16, ∀ b < 16, hexDigit (.ofNat a) = hexDigit (.ofNat b) → a = b := by decide
  have heq := hall a.toNat (by simpa [UInt8.lt_iff_toNat_lt] using ha) b.toNat
    (by simpa [UInt8.lt_iff_toNat_lt] using hb) (by simpa using h)
  exact UInt8.toNat_inj.mp heq

theorem hexDigits_inj {a b : UInt8} (hhigh : hexDigit (a / 16) = hexDigit (b / 16))
    (hlow : hexDigit (a % 16) = hexDigit (b % 16)) : a = b := by
  have hdiv : ∀ c : UInt8, (c / 16).toNat = c.toNat / 16 := fun c => by simp
  have hmod : ∀ c : UInt8, (c % 16).toNat = c.toNat % 16 := fun c => by simp
  have hlt : ∀ c : UInt8, c / 16 < 16 ∧ c % 16 < 16 := by
    intro c
    have hc : c.toNat < 256 := c.toNat_lt
    simp only [UInt8.lt_iff_toNat_lt, hdiv, hmod]
    simp
    omega
  have hhigh := congrArg UInt8.toNat (hexDigit_inj (hlt a).1 (hlt b).1 hhigh)
  have hlow := congrArg UInt8.toNat (hexDigit_inj (hlt a).2 (hlt b).2 hlow)
  rw [hdiv, hdiv] at hhigh
  rw [hmod, hmod] at hlow
  apply UInt8.toNat_inj.mp
  omega

theorem flatMap_hex_inj {s t : Bytes}
    (h : s.flatMap (fun b => [hexDigit (b / 16), hexDigit (b % 16)]) =
      t.flatMap fun b => [hexDigit (b / 16), hexDigit (b % 16)]) : s = t := by
  induction s generalizing t with
  | nil =>
    cases t with
    | nil => rfl
    | cons b t => cases h
  | cons a s ih =>
    cases t with
    | nil => cases h
    | cons b t =>
      simp only [List.flatMap_cons, List.cons_append, List.nil_append, List.cons.injEq] at h
      obtain ⟨hhigh, hlow, htail⟩ := h
      rw [hexDigits_inj hhigh hlow, ih htail]

theorem collisionFree_textConfig : CollisionFree textConfig := by
  intro password password' salt h
  exact List.append_cancel_left (flatMap_hex_inj h)

/-! ### Seven days -/

def annOps : List Op :=
  [.registerUser (zeros 32) "ann" "secret", .login (zeros 64) "ann" "secret", .tick 604800000]

theorem distinctTokens_annOps : DistinctTokens annOps := by
  show [(zeros 64).text].Nodup
  simp

theorem accounts_refine_ann :
    ∃ s, run (step textConfig) {} annOps = some s ∧ LogsIn textConfig s (zeros 64) "ann" "secret" ∧
      validates s (zeros 64).text = .ok (some "ann") := by
  have hrun : ∃ s, run (step textConfig) {} annOps = some s ∧ s.now = 604800000 ∧
      s.accounts = [(bytes "ann", bytes "secret")] ∧ s.issued = [⟨(zeros 64).text, "ann", 0⟩] :=
    ⟨_, rfl, rfl, rfl, rfl⟩
  obtain ⟨s, hrun, hnow, haccounts, hissued⟩ := hrun
  obtain ⟨-, hlogin, hvalidate, -⟩ :=
    accounts_refine collisionFree_textConfig hrun distinctTokens_annOps
  refine ⟨s, hrun, (hlogin _ _ _ (by decide)).mpr (by simp [haccounts]), ?_⟩
  obtain ⟨answer, hok, hiff⟩ := hvalidate (zeros 64).text (zeros 64).nulFree
  rw [hok, (hiff "ann").mpr ⟨_, by rw [hissued]; exact List.mem_singleton_self _, rfl, rfl, ?_⟩]
  rw [hnow]
  exact Nat.le_refl _

/-- **A token is valid at the end of its seventh day**, to the millisecond. -/
theorem valid_after_seven_days :
    ∃ s, run (step textConfig) {} annOps = some s ∧ DistinctTokens annOps ∧
      CollisionFree textConfig ∧ s.issued = [⟨(zeros 64).text, "ann", 0⟩] ∧
      s.now = 0 + tokenTtlSec * 1000 ∧ validates s (zeros 64).text = .ok (some "ann") :=
  ⟨_, rfl, distinctTokens_annOps, collisionFree_textConfig, rfl, rfl, by decide⟩

end Ocpe.Accounts
