import Mathlib.Tactic

/-!
# Signed arithmetic with undefined overflow

In C++ a sum or a product of two `int`s has a value only when the exact result is an `int`
again; outside the range the program has no meaning.  Each operation here is the exact one
followed by the conversion back, so that `none` stands for the overflow, and
`addInt?_eq_some` and its siblings are the whole interface: the result, where there is one,
is the exact result.
-/

namespace Ocpe.Lib

/-- The `int` of value `x`. -/
def int? (x : Int) : Option Int32 :=
  if -2147483648 ≤ x ∧ x ≤ 2147483647 then some (Int32.ofInt x) else none

def long? (x : Int) : Option Int64 :=
  if -9223372036854775808 ≤ x ∧ x ≤ 9223372036854775807 then some (Int64.ofInt x) else none

def addInt? (a b : Int32) : Option Int32 := int? (a.toInt + b.toInt)

def mulInt? (a b : Int32) : Option Int32 := int? (a.toInt * b.toInt)

def addLong? (a b : Int64) : Option Int64 := long? (a.toInt + b.toInt)

def mulLong? (a b : Int64) : Option Int64 := long? (a.toInt * b.toInt)

theorem int_range (a : Int32) : -2147483648 ≤ a.toInt ∧ a.toInt ≤ 2147483647 := by
  have hle := a.le_toInt
  have hlt := a.toInt_lt
  omega

theorem long_range (a : Int64) :
    -9223372036854775808 ≤ a.toInt ∧ a.toInt ≤ 9223372036854775807 := by
  have hle := a.le_toInt
  have hlt := a.toInt_lt
  omega

theorem int?_eq_some {x : Int} {r : Int32} : int? x = some r ↔ r.toInt = x := by
  unfold int?
  constructor
  · intro h
    split at h
    · next hx =>
      obtain rfl := Option.some.inj h
      exact Int32.toInt_ofInt_of_le (by omega) (by omega)
    · exact absurd h (Option.some_ne_none r).symm
  · rintro rfl
    rw [if_pos (int_range r), Int32.ofInt_toInt]

theorem long?_eq_some {x : Int} {r : Int64} : long? x = some r ↔ r.toInt = x := by
  unfold long?
  constructor
  · intro h
    split at h
    · next hx =>
      obtain rfl := Option.some.inj h
      exact Int64.toInt_ofInt_of_le (by omega) (by omega)
    · exact absurd h (Option.some_ne_none r).symm
  · rintro rfl
    rw [if_pos (long_range r), Int64.ofInt_toInt]

theorem addInt?_eq_some {a b r : Int32} : addInt? a b = some r ↔ r.toInt = a.toInt + b.toInt :=
  int?_eq_some

theorem mulInt?_eq_some {a b r : Int32} : mulInt? a b = some r ↔ r.toInt = a.toInt * b.toInt :=
  int?_eq_some

theorem addLong?_eq_some {a b r : Int64} :
    addLong? a b = some r ↔ r.toInt = a.toInt + b.toInt :=
  long?_eq_some

theorem mulLong?_eq_some {a b r : Int64} :
    mulLong? a b = some r ↔ r.toInt = a.toInt * b.toInt :=
  long?_eq_some

theorem exists_int? {x : Int} : (∃ r, int? x = some r) ↔ -2147483648 ≤ x ∧ x ≤ 2147483647 := by
  constructor
  · rintro ⟨r, hr⟩
    rw [← int?_eq_some.mp hr]
    exact int_range r
  · intro hx
    exact ⟨Int32.ofInt x, if_pos hx⟩

theorem exists_long? {x : Int} :
    (∃ r, long? x = some r) ↔ -9223372036854775808 ≤ x ∧ x ≤ 9223372036854775807 := by
  constructor
  · rintro ⟨r, hr⟩
    rw [← long?_eq_some.mp hr]
    exact long_range r
  · intro hx
    exact ⟨Int64.ofInt x, if_pos hx⟩

theorem toNat_toUInt64 {a : Int32} (h : 0 ≤ a.toInt) :
    (a.toInt64.toUInt64.toNat : Int) = a.toInt := by
  have hle : (0 : Int64) ≤ a.toInt64 := by
    rw [Int64.le_iff_toInt_le, Int32.toInt_toInt64]
    exact h
  rw [Int64.toNat_toUInt64_of_le hle, Int64.toNatClampNeg, Int32.toInt_toInt64]
  exact Int.toNat_of_nonneg h

end Ocpe.Lib
