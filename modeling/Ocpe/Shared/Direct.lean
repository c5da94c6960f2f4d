import Ocpe.Shared.Auth

/-!
# A program alone with Redis

`Talk.direct` runs a program on a good connection to a server that is up and that
nobody else uses meanwhile: the store it leaves, and how it ends.  Every command is
sent once and replied to, so a call is an equation between stores: `direct_bind` and
`direct_execCommand` are the rules, and `registerUser_direct`, `login_direct` and
`validateToken_direct` the calls of the account service.

`direct_frame` is the frame lemma: what a program never writes stays as it is.
-/

namespace Ocpe

open Lib Redis Prog RedisClient

/-- The server is up and takes connections: every operation is served. -/
def upServe (now : Nat) (n : Store × Ctx) (op : Wire) : (Store × Ctx) × Answer :=
  let r := exchange now n.1 n.2 op .served
  ((r.1, r.2.1), r.2.2)

/-- The program alone with a server that is up, on a good connection. -/
def Talk.direct {α : Type} (now : Nat) (store : Store) (p : Talk α) : Store × Except Exn α :=
  let r := Prog.interp (upServe now) (store, .good) p
  (r.1.1, r.2)

section Rules

variable {α β : Type} {now : Nat} {store : Store}

@[simp] theorem direct_pure (a : α) : Talk.direct now store (.pure a) = (store, .ok a) := rfl

@[simp] theorem direct_throw (e : Exn) :
    Talk.direct now store (.throw e : Talk α) = (store, .error e) := rfl

theorem direct_command (c : Cmd) (next : Answer → Talk α) :
    Talk.direct now store (.op (.command c) next) =
      Talk.direct now (exec now store c).1 (next (.reply (exec now store c).2)) := rfl

theorem direct_connect (next : Answer → Talk α) :
    Talk.direct now store (.op .connect next) =
      Talk.direct now store (next (.connected true)) := rfl

/-- **A call inside a program** is what it is alone. -/
theorem direct_bind (p : Talk α) (f : α → Talk β) :
    Talk.direct now store (p >>= f) =
      match Talk.direct now store p with
      | (store', .ok a) => Talk.direct now store' (f a)
      | (store', .error e) => (store', .error e) := by
  induction p generalizing store with
  | pure a => rfl
  | throw e => rfl
  | op i next ih =>
    rw [op_bind]
    cases i with
    | command c =>
      rw [direct_command, direct_command]
      exact ih _
    | connect =>
      rw [direct_connect, direct_connect]
      exact ih _

theorem direct_execCommand (c : Cmd) (f : Option Reply → Talk β) :
    Talk.direct now store (execCommand c >>= f) =
      Talk.direct now (exec now store c).1 (f (some (exec now store c).2)) := rfl

theorem direct_json (x : Except JsonError α) (f : α → Talk β) :
    Talk.direct now store (Talk.json x >>= f) =
      match x with
      | .ok a => Talk.direct now store (f a)
      | .error e => (store, .error (.json e)) := by
  cases x <;> rfl

/-- **What a program never writes stays as it is.** -/
theorem direct_frame {k : Bytes} {p : Talk α} (h : p.Issues fun op => op.writes ≠ some k) :
    (Talk.direct now store p).1 k = store k := by
  induction p generalizing store with
  | pure a => rfl
  | throw e => rfl
  | op i next ih =>
    cases i with
    | command c =>
      rw [direct_command, ih _ (h.2 _)]
      exact exec_frame h.1
    | connect =>
      rw [direct_connect]
      exact ih _ (h.2 _)

/-- **A program that only reads leaves the store.** -/
theorem direct_reads {p : Talk α} (h : p.Issues fun op => op.writes = none) :
    (Talk.direct now store p).1 = store := by
  funext k
  refine direct_frame (h.mono fun op hop => ?_)
  rw [hop]
  exact fun he => nomatch he

/-- The operation is a read of a key of which the two stores hold the same. -/
def Wire.ReadsSame (store store' : Store) (op : Wire) : Prop :=
  op.writes = none ∧ ∀ c, op = .command c → store' c.key = store c.key

/-- **What a program returns depends on what it reads.** -/
theorem direct_agree {store' : Store} {p : Talk α} (h : p.Issues (Wire.ReadsSame store store')) :
    (Talk.direct now store' p).2 = (Talk.direct now store p).2 := by
  induction p with
  | pure a => rfl
  | throw e => rfl
  | op i next ih =>
    cases i with
    | connect =>
      rw [direct_connect, direct_connect]
      exact ih _ (h.2 _)
    | command c =>
      have hstore : ∀ s : Store, (exec now s c).1 = s := by
        intro s
        funext k
        apply exec_frame
        have hwrites : c.writes = none := h.1.1
        rw [hwrites]
        exact fun he => nomatch he
      rw [direct_command, direct_command, hstore, hstore, exec_reply_congr (h.1.2 c rfl)]
      exact ih _ (h.2 _)

theorem direct_bind_reads {p : Talk α} {f : α → Talk β}
    (hf : ∀ a, (f a).Issues fun op => op.writes = none) :
    (Talk.direct now store (p >>= f)).1 = (Talk.direct now store p).1 := by
  rw [direct_bind]
  rcases Talk.direct now store p with ⟨store', r⟩
  cases r with
  | error e => rfl
  | ok a => exact direct_reads (hf a)

end Rules

/-! ### The account service -/

namespace AuthService

variable {sha256 : Bytes → Bytes} {now : Nat} {store : Store}

def getReply : Option Value → Reply
  | none => .nil
  | some (.str b) => .str b
  | some (.list _) => wrongType

theorem exec_get (key : Bytes) :
    exec now store (.get key) = (store, getReply (store.live now key)) := by
  unfold exec
  dsimp only
  cases store.live now key with
  | none => rfl
  | some v => cases v <;> rfl

theorem direct_get {α : Type} (key : Bytes) (f : Option Reply → Talk α) :
    Talk.direct now store (execCommand (.get key) >>= f) =
      Talk.direct now store (f (some (getReply (store.live now key)))) := by
  rw [direct_execCommand, exec_get]

theorem registerUser_direct {salt : HexString 32} {username password : Bytes}
    (hcheck : checkRegistration username password = none) :
    Talk.direct now store (registerUser sha256 salt username password) =
      match store.live now (userKey username) with
      | none =>
        (store.put (userKey username) (some ⟨.str (credential sha256 salt password), none⟩),
          .ok (.ok ()))
      | some _ => (store, .ok (.error "Username already exists")) := by
  have hkey : cstr (userPrefix ++ username) = userKey username := rfl
  rw [registerUser, hcheck]
  dsimp only
  rw [rawGet, direct_get, hkey]
  cases store.live now (userKey username) with
  | none => rfl
  | some v => cases v <;> rfl

theorem registerUser_direct_refused {salt : HexString 32} {username password error : Bytes}
    (hcheck : checkRegistration username password = some error) :
    Talk.direct now store (registerUser sha256 salt username password) =
      (store, .ok (.error error)) := by
  rw [registerUser, hcheck]
  rfl

theorem not_passwordFits_of_no_colon {stored password : Bytes} (h : (58 : UInt8) ∉ stored) :
    passwordFits sha256 stored password = false := by
  simp [passwordFits, h]

theorem login_direct {token : HexString 64} {username password : Bytes} :
    Talk.direct now store (login sha256 token username password) =
      match store.live now (userKey username) with
      | some (.str stored) =>
        if passwordFits sha256 stored password = true then
          (store.put (tokenKey token.text)
              (some ⟨.str username, some (now + tokenTtlSec * 1000)⟩),
            .ok (some ⟨token.text, username⟩))
        else (store, .ok none)
      | _ => (store, .ok none) := by
  have hkey : cstr (userPrefix ++ username) = userKey username := rfl
  rw [login, rawGet, direct_get, hkey]
  cases store.live now (userKey username) with
  | none => rfl
  | some v =>
    cases v with
    | list l =>
      have hcolon : (58 : UInt8) ∉ replyStr wrongType := by decide
      show Talk.direct now store
        (if passwordFits sha256 (replyStr wrongType) password = true then _ else _) = _
      rw [not_passwordFits_of_no_colon hcolon]
      rfl
    | str stored =>
      show Talk.direct now store
        (if passwordFits sha256 stored password = true then _ else _) = _
      cases hfits : passwordFits sha256 stored password with
      | false => simp [hfits]
      | true =>
        simp only [hfits, if_true]
        rfl

theorem validateToken_direct {token : Bytes} (htoken : token ≠ []) :
    Talk.direct now store (validateToken token) =
      (store, .ok ((store.live now (tokenKey token)).map fun v => replyStr (getReply (some v)))) := by
  have hkey : cstr (tokenPrefix ++ token) = tokenKey token := rfl
  rw [validateToken, if_neg htoken, rawGet, direct_get, hkey]
  cases store.live now (tokenKey token) with
  | none => rfl
  | some v => cases v <;> rfl

end AuthService

end Ocpe
