import Ocpe.Shared.ProblemLoader
import Ocpe.Shared.RedisClient

/-!
# Accounts and tokens

`shared/src/auth.cpp`.  What the random generators return is an argument of the
function that calls them, and SHA-256 comes from outside.
-/

namespace Ocpe

open Lib Redis

structure AuthSession where
  token : Bytes
  username : Bytes
  deriving DecidableEq, Repr

namespace AuthService

open Prog RedisClient

def userPrefix : Bytes := "ocpe:user:"
def tokenPrefix : Bytes := "ocpe:token:"
def userSubsPrefix : Bytes := "ocpe:user_subs:"
def tokenTtlSec : Nat := 7 * 24 * 3600

/-- The keys as `%s` sends them. -/
def userKey (username : Bytes) : Bytes := cstr (userPrefix ++ username)
def tokenKey (token : Bytes) : Bytes := cstr (tokenPrefix ++ token)
def userSubsKey (username : Bytes) : Bytes := cstr (userSubsPrefix ++ username)

def hexDigit (n : UInt8) : UInt8 := if n < 10 then 48 + n else 87 + n

def hashPassword (sha256 : Bytes → Bytes) (password salt : Bytes) : Bytes :=
  (sha256 (salt ++ password)).flatMap fun b => [hexDigit (b / 16), hexDigit (b % 16)]

def extractBearerToken (authHeader : Bytes) : Bytes :=
  let bearer := bytes "Bearer "
  if bearer.length < authHeader.length ∧ authHeader.take bearer.length = bearer then
    authHeader.drop bearer.length
  else []

/-- `std::isalnum` in the C locale. -/
def isalnum (c : UInt8) : Bool := (48 ≤ c && c ≤ 57) || (65 ≤ c && c ≤ 90) || (97 ≤ c && c ≤ 122)

/-- The checks at the head of `register_user`: the error of the first that fails. -/
def checkRegistration (username password : Bytes) : Option Bytes :=
  if username.length < 3 ∨ 32 < username.length then some "Username must be 3-32 characters"
  else if password.length < 6 then some "Password must be at least 6 characters"
  else if username.any fun c => !isalnum c && c ≠ 95 then
    some "Username may only contain letters, numbers, and underscores"
  else none

section

variable (sha256 : Bytes → Bytes)

/-- What `register_user` stores for a user. -/
def credential (salt : HexString 32) (password : Bytes) : Bytes :=
  salt.text ++ bytes ":" ++ hashPassword sha256 password salt.text

def registerUser (salt : HexString 32) (username password : Bytes) :
    Talk (Except Bytes Unit) := do
  match checkRegistration username password with
  | some error => return .error error
  | none =>
    match ← rawGet (userPrefix ++ username) with
    | none | some .nil =>
      if ← rawSet (userPrefix ++ username) (credential sha256 salt password) then
        return .ok ()
      else return .error "Failed to create user"
    | some _ => return .error "Username already exists"

/-- What `register_user` does with a free name. -/
def createUser (salt : HexString 32) (username password : Bytes) : Talk (Except Bytes Unit) := do
  if ← rawSet (userPrefix ++ username) (credential sha256 salt password) then return .ok ()
  else return .error "Failed to create user"

/-- The password check of `login` on the stored text. -/
def passwordFits (stored password : Bytes) : Bool :=
  let salt := stored.takeWhile (· ≠ 58)
  let hash := stored.drop (salt.length + 1)
  58 ∈ stored && hashPassword sha256 password salt = hash

def login (token : HexString 64) (username password : Bytes) : Talk (Option AuthSession) := do
  match ← rawGet (userPrefix ++ username) with
  | none | some .nil => return none
  | some reply =>
    if passwordFits sha256 (replyStr reply) password then
      if ← rawSetEx (tokenPrefix ++ token.text) username tokenTtlSec then
        return some ⟨token.text, username⟩
      else return none
    else return none

end

def validateToken (token : Bytes) : Talk (Option Bytes) := do
  if token = [] then return none
  else
    match ← rawGet (tokenPrefix ++ token) with
    | none | some .nil => return none
    | some reply => return some (replyStr reply)

def recordSubmission (username submissionId : Bytes) : Talk Bool := do
  match ← rawLpush (userSubsPrefix ++ username) submissionId with
  | none => return false
  | some _ =>
    let _ ← rawLtrim (userSubsPrefix ++ username) 0 99
    return true

def getUserSubmissions (username : Bytes) (limit : Int) : Talk (List Bytes) := do
  match ← rawLrange (userSubsPrefix ++ username) 0 (limit - 1) with
  | some (.arr ids) => return ids
  | _ => return []

/-! ### What is stored for a user -/

theorem ascii_of_checkRegistration {username password : Bytes}
    (h : checkRegistration username password = none) : ∀ b ∈ username, b ≠ 0 ∧ b ≤ 0x7F := by
  unfold checkRegistration at h
  split at h
  · cases h
  split at h
  · cases h
  split at h
  · cases h
  next hchars =>
    intro b hb
    have hb : isalnum b = true ∨ b = 95 := by
      by_contra hnot
      rw [not_or] at hnot
      exact hchars (List.any_eq_true.mpr ⟨b, hb, by simp [hnot]⟩)
    simp only [isalnum, Bool.or_eq_true, Bool.and_eq_true, decide_eq_true_eq,
      UInt8.le_iff_toNat_le, ← UInt8.toNat_inj] at hb
    simp only [ne_eq, UInt8.le_iff_toNat_le, ← UInt8.toNat_inj]
    simp at hb ⊢
    omega

/-- The names that `register_user` takes. -/
def UsernameRule (username : Bytes) : Prop :=
  3 ≤ username.length ∧ username.length ≤ 32 ∧ ∀ c ∈ username, isalnum c = true ∨ c = 95

instance (username : Bytes) : Decidable (UsernameRule username) :=
  @instDecidableAnd _ _ inferInstance (@instDecidableAnd _ _ inferInstance (List.decidableBAll _ _))

theorem checkRegistration_eq_none {username password : Bytes} :
    checkRegistration username password = none ↔ UsernameRule username ∧ 6 ≤ password.length := by
  have hchars : (username.any fun c => !isalnum c && c ≠ 95) = true ↔
      ¬ ∀ c ∈ username, isalnum c = true ∨ c = 95 := by
    simp only [List.any_eq_true, Bool.and_eq_true, Bool.not_eq_true', decide_eq_true_eq, not_forall,
      not_or, exists_prop, Bool.not_eq_true]
  rw [checkRegistration, UsernameRule]
  split
  · next hlen =>
    simp only [reduceCtorEq, false_iff, not_and]
    omega
  split
  · next hlen =>
    simp only [reduceCtorEq, false_iff, not_and]
    omega
  split
  · next hany =>
    have hnot := hchars.mp hany
    simp [hnot]
  · next hall =>
    rw [hchars, not_not] at hall
    simp only [true_iff]
    exact ⟨⟨by omega, by omega, hall⟩, by omega⟩

theorem UsernameRule.nulFree {username : Bytes} (h : UsernameRule username) : NulFree username := by
  intro h0
  rcases h.2.2 0 h0 with h0 | h0 <;> revert h0 <;> decide

/-- **The first colon ends the salt**: the check of a password against a stored
credential compares the two hashes. -/
theorem passwordFits_credential_iff (sha256 : Bytes → Bytes) (salt : HexString 32)
    (password password' : Bytes) :
    passwordFits sha256 (credential sha256 salt password) password' = true ↔
      hashPassword sha256 password' salt.text = hashPassword sha256 password salt.text := by
  have hstored : credential sha256 salt password =
      salt.text ++ 58 :: hashPassword sha256 password salt.text := by
    rw [credential, List.append_assoc]
    rfl
  have hsalt : ∀ b ∈ salt.text, (decide (b ≠ 58)) = true := by
    intro b hb
    have hhex := salt.hex b hb
    rw [decide_eq_true_eq]
    rintro rfl
    revert hhex
    decide
  have htake : (credential sha256 salt password).takeWhile (· ≠ 58) = salt.text := by
    rw [hstored, List.takeWhile_append_of_pos hsalt, List.takeWhile_cons_of_neg (by simp),
      List.append_nil]
  have hmem : (58 : UInt8) ∈ credential sha256 salt password := by simp [hstored]
  have hdrop : (credential sha256 salt password).drop (salt.text.length + 1) =
      hashPassword sha256 password salt.text := by
    rw [hstored, ← List.drop_drop, List.drop_left]
    rfl
  rw [passwordFits, htake, hdrop]
  simp [hmem]

/-- **A password fits what was stored for it.** -/
theorem passwordFits_credential (sha256 : Bytes → Bytes) (salt : HexString 32) (password : Bytes) :
    passwordFits sha256 (credential sha256 salt password) password = true :=
  (passwordFits_credential_iff sha256 salt password password).mpr rfl

/-! ### Undisturbed calls -/

section Path

variable {sha256 : Bytes → Bytes} {username password : Bytes}

theorem registerUser_path {salt : HexString 32} (hcheck : checkRegistration username password = none) :
    (registerUser sha256 salt username password).Path
      [(.command (.get (userKey username)), .reply .nil),
        (.command (.set (userKey username) (credential sha256 salt password) none),
          .reply (.status "OK"))]
      (.pure (.ok ())) := by
  simp only [registerUser, hcheck]
  exact ⟨rfl, rfl, rfl⟩

theorem login_path {token : HexString 64} {stored : Bytes}
    (hfits : passwordFits sha256 stored password = true) :
    (login sha256 token username password).Path
      [(.command (.get (userKey username)), .reply (.str stored)),
        (.command (.set (tokenKey token.text) username (some tokenTtlSec)), .reply (.status "OK"))]
      (.pure (some ⟨token.text, username⟩)) := by
  refine ⟨rfl, ?_⟩
  show (if passwordFits sha256 stored password = true then _ else _ :
    Talk (Option AuthSession)).Path _ _
  rw [if_pos hfits]
  exact ⟨rfl, rfl⟩

theorem extractBearerToken_bearer {token : Bytes} (htoken : token ≠ []) :
    extractBearerToken (bytes "Bearer " ++ token) = token := by
  have hlen : 0 < token.length := List.length_pos_iff.mpr htoken
  unfold extractBearerToken
  rw [if_pos ⟨by simp [hlen], List.take_left⟩]
  exact List.drop_left

theorem validateToken_path {token reply : Bytes} (htoken : token ≠ []) :
    (validateToken token).Path [(.command (.get (tokenKey token)), .reply (.str reply))]
      (.pure (some reply)) := by
  rw [validateToken, if_neg htoken]
  exact ⟨rfl, rfl⟩

end Path

end AuthService

end Ocpe
