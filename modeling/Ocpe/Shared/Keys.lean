import Ocpe.Shared.Auth

/-!
# The keys

Six kinds of key, told apart by their first ten bytes (`take_resultKey` and the
like): two keys of different kinds are never the same, whatever is behind the
prefix.  Within a kind, keys of NUL-free names are the same only for the same name.
-/

namespace Ocpe

open Lib RedisClient AuthService

theorem cstr_prefix {p : Bytes} (hp : NulFree p) {n : Nat} (hn : n ≤ p.length) (s : Bytes) :
    (cstr (p ++ s)).take n = p.take n := by
  rw [cstr_append hp, List.take_append_of_le_length hn]

theorem take_queueKey : queueKey.take 10 = bytes "ocpe:submi" := by decide

theorem take_resultKey (id : Bytes) : (resultKey id).take 10 = bytes "ocpe:resul" :=
  cstr_prefix (by decide) (by decide) id

theorem take_statusKey (id : Bytes) : (statusKey id).take 10 = bytes "ocpe:statu" :=
  cstr_prefix (by decide) (by decide) id

theorem take_userKey (username : Bytes) : (userKey username).take 10 = bytes "ocpe:user:" :=
  cstr_prefix (by decide) (by decide) username

theorem take_tokenKey (token : Bytes) : (tokenKey token).take 10 = bytes "ocpe:token" :=
  cstr_prefix (by decide) (by decide) token

theorem take_userSubsKey (username : Bytes) :
    (userSubsKey username).take 10 = bytes "ocpe:user_" :=
  cstr_prefix (by decide) (by decide) username

/-- **Keys that begin differently differ.** -/
theorem ne_of_take {k k' a b : Bytes} (h : k.take 10 = a) (h' : k'.take 10 = b) (hab : a ≠ b) :
    k ≠ k' := fun he => hab (h.symm.trans ((congrArg _ he).trans h'))

theorem cstr_prefix_inj {p s t : Bytes} (hp : NulFree p) :
    cstr (p ++ s) = cstr (p ++ t) ↔ cstr s = cstr t := by
  rw [cstr_append hp, cstr_append hp, List.append_cancel_left_eq]

theorem statusKey_inj {a b : Bytes} : statusKey a = statusKey b ↔ cstr a = cstr b :=
  cstr_prefix_inj (by decide)

theorem resultKey_inj {a b : Bytes} : resultKey a = resultKey b ↔ cstr a = cstr b :=
  cstr_prefix_inj (by decide)

theorem userKey_inj {a b : Bytes} : userKey a = userKey b ↔ cstr a = cstr b :=
  cstr_prefix_inj (by decide)

theorem tokenKey_inj {a b : Bytes} : tokenKey a = tokenKey b ↔ cstr a = cstr b :=
  cstr_prefix_inj (by decide)

theorem userSubsKey_inj {a b : Bytes} : userSubsKey a = userSubsKey b ↔ cstr a = cstr b :=
  cstr_prefix_inj (by decide)

end Ocpe
