import Mathlib.Data.List.Basic
import Mathlib.Data.List.TakeWhile
import Mathlib.Tactic.Common

/-!
# Byte strings

A C++ `std::string` is a sequence of bytes, with no promise about what they
encode.  This file has the three readings of such a string that a program which
talks to a C library and to a JSON library meets.

* `bytes` turns an ASCII literal of the source into its bytes, and `decimal` is
  what `std::to_string` prints.
* `cstr s` is what a callee sees that is handed `s.c_str()`: everything before
  the first NUL.  `cstr_eq_self` says when nothing is lost, and
  `cstr_append` how a NUL-free prefix carries over.
* `ValidUtf8` is the UTF-8 syntax of RFC 3629 as a machine over the bytes.
  `validUtf8_append` and `validUtf8_of_ascii` are what a program needs that glues
  literals to text it got from elsewhere.
-/

namespace Ocpe.Lib

abbrev Bytes := List UInt8

def ascii (cs : List Char) : Bytes := cs.map fun c => UInt8.ofNat c.toNat

def bytes (s : String) : Bytes := ascii s.toList

instance : Coe String Bytes := ⟨bytes⟩

/-- `std::to_string` of a number. -/
def decimal (n : Int) : Bytes :=
  if n < 0 then 45 :: ascii (Nat.toDigits 10 n.natAbs) else ascii (Nat.toDigits 10 n.natAbs)

/-! ### C strings -/

/-- What is left of a string that is passed as `c_str()`. -/
def cstr (s : Bytes) : Bytes := s.takeWhile (· != 0)

def NulFree (s : Bytes) : Prop := (0 : UInt8) ∉ s

instance (s : Bytes) : Decidable (NulFree s) := inferInstanceAs (Decidable (_ ∉ _))

theorem cstr_append {p : Bytes} (hp : NulFree p) (s : Bytes) : cstr (p ++ s) = p ++ cstr s := by
  unfold cstr
  rw [List.takeWhile_append_of_pos]
  intro b hb
  simpa using fun h : b = 0 => hp (h ▸ hb)

theorem cstr_eq_self {s : Bytes} (hs : NulFree s) : cstr s = s := by
  have h := cstr_append hs []
  simpa [cstr] using h

theorem nulFree_cstr (s : Bytes) : NulFree (cstr s) := by
  intro h
  have := List.mem_takeWhile_imp h
  simp at this

@[simp] theorem nulFree_append {s t : Bytes} : NulFree (s ++ t) ↔ NulFree s ∧ NulFree t := by
  simp [NulFree]

/-! ### UTF-8 -/

/-- Where the reader stands between two bytes. -/
inductive Utf8State where
  | start
  | tail1
  | tail2
  | tail3
  | afterE0
  | afterED
  | afterF0
  | afterF4
  deriving DecidableEq, Repr

def Utf8State.first (b : UInt8) : Option Utf8State :=
  if b ≤ 0x7F then some .start
  else if 0xC2 ≤ b ∧ b ≤ 0xDF then some .tail1
  else if b = 0xE0 then some .afterE0
  else if b = 0xED then some .afterED
  else if 0xE1 ≤ b ∧ b ≤ 0xEF then some .tail2
  else if b = 0xF0 then some .afterF0
  else if 0xF1 ≤ b ∧ b ≤ 0xF3 then some .tail3
  else if b = 0xF4 then some .afterF4
  else none

/-- One byte, or `none` where no UTF-8 text goes on with it. -/
def Utf8State.step (q : Utf8State) (b : UInt8) : Option Utf8State :=
  let within (lo hi : UInt8) (q' : Utf8State) := if lo ≤ b ∧ b ≤ hi then some q' else none
  match q with
  | .start => first b
  | .tail1 => within 0x80 0xBF .start
  | .tail2 => within 0x80 0xBF .tail1
  | .tail3 => within 0x80 0xBF .tail2
  | .afterE0 => within 0xA0 0xBF .tail1
  | .afterED => within 0x80 0x9F .tail1
  | .afterF0 => within 0x90 0xBF .tail2
  | .afterF4 => within 0x80 0x8F .tail2

def Utf8State.run (q : Utf8State) (s : Bytes) : Option Utf8State := s.foldlM step q

def ValidUtf8 (s : Bytes) : Prop := Utf8State.start.run s = some .start

instance (s : Bytes) : Decidable (ValidUtf8 s) := inferInstanceAs (Decidable (_ = _))

theorem validUtf8_nil : ValidUtf8 [] := rfl

/-- **After well-formed text the reader is where it was**, so what follows is
judged on its own. -/
theorem validUtf8_append {s : Bytes} (hs : ValidUtf8 s) (t : Bytes) :
    ValidUtf8 (s ++ t) ↔ ValidUtf8 t := by
  unfold ValidUtf8 Utf8State.run at *
  rw [List.foldlM_append, hs]
  rfl

theorem validUtf8_of_ascii {s : Bytes} (h : ∀ b ∈ s, b ≤ 0x7F) : ValidUtf8 s := by
  induction s with
  | nil => exact validUtf8_nil
  | cons b s ih =>
    have hb : ValidUtf8 [b] := by
      have := h b (by simp)
      simp [ValidUtf8, Utf8State.run, Utf8State.step, Utf8State.first, this]
    exact (validUtf8_append hb s).mpr (ih fun c hc => h c (by simp [hc]))

/-! ### Numbers -/

theorem ascii_toDigits_le (n : Nat) : ∀ b ∈ ascii (Nat.toDigits 10 n), 48 ≤ b ∧ b ≤ 57 := by
  intro b hb
  obtain ⟨c, hc, rfl⟩ := List.mem_map.mp hb
  have hd := Nat.isDigit_of_mem_toDigits (by decide) (by decide) hc
  simp only [Char.isDigit, Bool.and_eq_true, decide_eq_true_eq, ge_iff_le,
    UInt32.le_iff_toNat_le] at hd
  have h1 : c.toNat = c.val.toNat := rfl
  simp only [UInt8.le_iff_toNat_le]
  have h2 : (UInt8.ofNat c.toNat).toNat = c.toNat := by
    rw [UInt8.toNat_ofNat']
    have : c.val.toNat ≤ 57 := hd.2
    omega
  rw [h2, h1]
  exact hd

theorem decimal_ascii (n : Int) : ∀ b ∈ decimal n, b ≤ 0x7F := by
  have hd : ∀ b ∈ ascii (Nat.toDigits 10 n.natAbs), b ≤ 0x7F := fun b hb =>
    UInt8.le_trans (ascii_toDigits_le _ b hb).2 (by decide)
  intro b hb
  unfold decimal at hb
  split at hb
  · rcases List.mem_cons.mp hb with rfl | hb
    · decide
    · exact hd b hb
  · exact hd b hb

theorem validUtf8_decimal (n : Int) : ValidUtf8 (decimal n) := validUtf8_of_ascii (decimal_ascii n)

end Ocpe.Lib
