import Ocpe.Lib.Trim
import Ocpe.Sandbox.Sandbox

/-!
# Comparing outputs

`trim_output` and `outputs_match` of `sandbox/src/sandbox.cpp`.  The two loops of
`trim_output` approach each other from both ends of the string; `trimChecked` is the function
once more with every read and the range of `substr` checked.

* `trimChecked_eq`: no read and no range is ever out of bounds.
* `trimOutput_eq_trim`: the loops leave what is between the blanks.
* `comparing`: what `outputs_match` decides.
-/

namespace Ocpe.Sandbox

open Lib

/-! ### With every read checked -/

/-- The first loop; it has no value when it reads past the end. -/
def scanStart (s : Bytes) (start : Nat) : Option Nat :=
  if start < s.length then
    match s[start]? with
    | none => none
    | some c => if isBlank c then scanStart s (start + 1) else some start
  else some start
termination_by s.length - start

/-- The second loop, from `stop` down. -/
def scanEnd (s : Bytes) (start : Nat) : Nat → Option Nat
  | 0 => some 0
  | stop + 1 =>
    if start < stop + 1 then
      match s[stop]? with
      | none => none
      | some c => if isBlank c then scanEnd s start stop else some (stop + 1)
    else some (stop + 1)

/-- `s.substr(start, stop - start)`; it has no value when the count is negative or the range
is not within the string. -/
def substr (s : Bytes) (start stop : Nat) : Option Bytes :=
  if start ≤ stop ∧ stop ≤ s.length then some ((s.drop start).take (stop - start)) else none

/-- `trim_output`, if no read and no range is out of bounds. -/
def trimChecked (s : Bytes) : Option Bytes := do
  let start ← scanStart s 0
  let stop ← scanEnd s start s.length
  substr s start stop

/-! ### The first loop -/

/-- From `start` on, `n` rounds are enough for the blanks that are left. -/
theorem trimStart_eq (s : Bytes) {n start : Nat} (hn : s.length ≤ n + start)
    (hstart : start ≤ s.length) :
    trimStart s n start = start + ((s.drop start).takeWhile isBlank).length := by
  induction n generalizing start with
  | zero =>
    obtain rfl : start = s.length := by omega
    rw [List.drop_length]
    rfl
  | succ n ih =>
    unfold trimStart
    by_cases hlt : start < s.length
    · rw [List.getElem?_eq_getElem hlt, List.drop_eq_getElem_cons hlt, Option.any_some]
      by_cases hc : isBlank s[start] = true
      · rw [if_pos hc, @ih (start + 1) (by omega) (by omega),
          List.takeWhile_cons_of_pos hc, List.length_cons]
        omega
      · rw [if_neg hc, List.takeWhile_cons_of_neg hc]
        rfl
    · obtain rfl : start = s.length := by omega
      rw [List.getElem?_eq_none (Nat.le_refl _), List.drop_length]
      rfl

theorem scanStart_eq (s : Bytes) (start : Nat) {n : Nat} (hn : s.length ≤ n + start) :
    scanStart s start = some (trimStart s n start) := by
  induction n generalizing start with
  | zero =>
    rw [scanStart, if_neg (by omega)]
    rfl
  | succ n ih =>
    rw [scanStart, trimStart]
    by_cases hlt : start < s.length
    · rw [if_pos hlt, List.getElem?_eq_getElem hlt, Option.any_some]
      by_cases hc : isBlank s[start] = true
      · simp only [hc, if_true]
        exact ih (start + 1) (by omega)
      · simp only [hc, if_false, Bool.false_eq_true]
    · rw [if_neg hlt, List.getElem?_eq_none (by omega)]
      rfl

/-! ### The second loop -/

/-- The second loop leaves the blanks before `stop` out, down to `start`. -/
theorem trimEnd_eq (s : Bytes) {start stop : Nat} (hstart : start ≤ stop) (hstop : stop ≤ s.length) :
    trimEnd s start stop =
      start + (((s.drop start).take (stop - start)).rdropWhile isBlank).length := by
  induction stop with
  | zero =>
    obtain rfl : start = 0 := by omega
    rfl
  | succ stop ih =>
    unfold trimEnd
    by_cases hlt : start < stop + 1
    · have hread : s[stop]? = some s[stop] := List.getElem?_eq_getElem (by omega)
      have hlast : (s.drop start).take (stop + 1 - start) =
          (s.drop start).take (stop - start) ++ [s[stop]] := by
        rw [show stop + 1 - start = stop - start + 1 by omega, List.take_add_one,
          List.getElem?_drop, show start + (stop - start) = stop by omega, hread]
        rfl
      rw [hread, Option.any_some, hlast]
      by_cases hc : isBlank s[stop] = true
      · rw [if_pos ⟨hlt, hc⟩, List.rdropWhile_concat_pos _ _ _ hc]
        exact ih (by omega) (by omega)
      · rw [if_neg (fun h => hc h.2), List.rdropWhile_concat_neg _ _ _ hc, List.length_append,
          List.length_take, List.length_drop, List.length_singleton]
        omega
    · rw [if_neg (fun h => hlt h.1)]
      obtain rfl : start = stop + 1 := by omega
      simp

theorem scanEnd_eq (s : Bytes) (start : Nat) {stop : Nat} (hstop : stop ≤ s.length) :
    scanEnd s start stop = some (trimEnd s start stop) := by
  induction stop with
  | zero => rfl
  | succ stop ih =>
    have hread : s[stop]? = some s[stop] := List.getElem?_eq_getElem (by omega)
    rw [scanEnd, trimEnd, hread, Option.any_some]
    by_cases hlt : start < stop + 1
    · by_cases hc : isBlank s[stop] = true
      · simp only [hlt, hc, if_true, and_self]
        exact ih (by omega)
      · simp only [hlt, hc, if_true, if_false, and_false, Bool.false_eq_true]
    · rw [if_neg hlt, if_neg (fun h => hlt h.1)]

/-! ### What is left -/

/-- **The loops leave what is between the blanks.** -/
theorem trimOutput_eq_trim (s : Bytes) : trimOutput s = trim isBlank s := by
  have hstart : trimStart s s.length 0 = (s.takeWhile isBlank).length := by
    rw [trimStart_eq s (Nat.le_refl _) (Nat.zero_le _), List.drop_zero, Nat.zero_add]
  have hle : (s.takeWhile isBlank).length ≤ s.length := (List.takeWhile_sublist _).length_le
  have hrest : s.drop (s.takeWhile isBlank).length = s.dropWhile isBlank := by
    have hdrop := @List.drop_left _ (s.takeWhile isBlank) (s.dropWhile isBlank)
    rwa [List.takeWhile_append_dropWhile] at hdrop
  have hall : (s.dropWhile isBlank).take (s.length - (s.takeWhile isBlank).length) =
      s.dropWhile isBlank := by
    rw [← hrest, ← List.length_drop, List.take_length]
  unfold trimOutput
  dsimp only
  rw [hstart, trimEnd_eq s hle (Nat.le_refl _), Nat.add_sub_cancel_left, hrest, hall]
  exact (List.prefix_iff_eq_take.mp (List.rdropWhile_prefix isBlank _)).symm

/-- **No read and no range is out of bounds.** -/
theorem trimChecked_eq (s : Bytes) : trimChecked s = some (trimOutput s) := by
  have hle : trimStart s s.length 0 ≤ s.length := by
    rw [trimStart_eq s (Nat.le_refl _) (Nat.zero_le _), List.drop_zero, Nat.zero_add]
    exact (List.takeWhile_sublist _).length_le
  have hend := trimEnd_eq s hle (Nat.le_refl _)
  have hlen : (((s.drop (trimStart s s.length 0)).take
      (s.length - trimStart s s.length 0)).rdropWhile isBlank).length ≤
        s.length - trimStart s s.length 0 := by
    refine (List.rdropWhile_prefix isBlank _).length_le.trans ?_
    rw [List.length_take, List.length_drop]
    omega
  unfold trimChecked
  rw [scanStart_eq s 0 (n := s.length) (Nat.le_refl _)]
  show (scanEnd s (trimStart s s.length 0) s.length).bind _ = _
  rw [scanEnd_eq s _ (Nat.le_refl _)]
  show substr s _ _ = _
  rw [substr, if_pos (by omega)]
  rfl

/-! ### What is compared -/

/-- **What `trim_output` leaves and what `outputs_match` decides.**  Every string is what is
left of it between blanks, and that is the only such string which neither begins nor ends with
one; two outputs match exactly when they are the same string between blanks.  So matching is
an equivalence, and blanks around either output change nothing. -/
theorem comparing :
    (∀ s, trimChecked s = some (trimOutput s) ∧
      ∀ t, trimOutput s = t ↔ Pads isBlank t s ∧ Bare isBlank t) ∧
    (∀ a b, outputsMatch a b = true ↔ ∃ t, Pads isBlank t a ∧ Pads isBlank t b) ∧
    Equivalence (fun a b => outputsMatch a b = true) ∧
    ∀ l r : Bytes, (∀ c ∈ l, isBlank c = true) → (∀ c ∈ r, isBlank c = true) →
      ∀ a b, outputsMatch (l ++ a ++ r) b = outputsMatch a b ∧
        outputsMatch a (l ++ b ++ r) = outputsMatch a b := by
  have hmatch : ∀ a b, outputsMatch a b = true ↔ trimOutput a = trimOutput b := by
    intro a b
    rw [outputsMatch, decide_eq_true_eq]
  refine ⟨fun s => ⟨trimChecked_eq s, fun t => ?_⟩, fun a b => ?_, ⟨fun a => ?_, ?_, ?_⟩,
    fun l r hl hr a b => ?_⟩
  · rw [trimOutput_eq_trim]
    exact trim_eq_iff
  · rw [hmatch, trimOutput_eq_trim, trimOutput_eq_trim]
    exact trim_eq_trim_iff
  · exact (hmatch a a).mpr rfl
  · intro a b h
    exact (hmatch b a).mpr ((hmatch a b).mp h).symm
  · intro a b c h h'
    exact (hmatch a c).mpr (((hmatch a b).mp h).trans ((hmatch b c).mp h'))
  · have hpad : ∀ s, trimOutput (l ++ s ++ r) = trimOutput s := by
      intro s
      rw [trimOutput_eq_trim, trimOutput_eq_trim]
      exact Pads.trim_eq ⟨l, r, rfl, hl, hr⟩
    rw [outputsMatch, outputsMatch, outputsMatch, hpad, hpad]
    exact ⟨rfl, rfl⟩

example : trimOutput " \t\r\n" = [] := by decide

end Ocpe.Sandbox
