import Mathlib.Data.List.Induction
import Mathlib.Tactic.Common

/-!
# A window on the newest

A list that is pushed to at its head, and that every caller cuts to length after its push.
The two are separate moves, so between them the list is longer than it should be, and a cut
hits what others have pushed meanwhile.

* `Newest k h l`: the list `l` is the front of the history `h`, and at least `k` long where
  the history is.
* `newest_replay`: so is the list after any moves in any order.
* `length_replay_le`: it is too long by no more than the cuts that are still owed.
-/

namespace Ocpe.Lib

variable {C α : Type} {k : Nat}

/-- The list is the front of the history, and has its newest `k`. -/
structure Newest (k : Nat) (h l : List α) : Prop where
  front : l <+: h
  enough : min h.length k ≤ l.length

namespace Newest

variable {h l : List α}

theorem nil : Newest k ([] : List α) [] := ⟨List.nil_prefix, by simp⟩

theorem push (hl : Newest k h l) (x : α) : Newest k (x :: h) (x :: l) := by
  refine ⟨List.cons_prefix_cons.mpr ⟨rfl, hl.front⟩, ?_⟩
  have henough := hl.enough
  simp only [List.length_cons]
  omega

theorem trim (hl : Newest k h l) : Newest k h (l.take k) := by
  refine ⟨(List.take_prefix k l).trans hl.front, ?_⟩
  have henough := hl.enough
  rw [List.length_take]
  omega

/-- **The newest of the list** are the newest of the history. -/
theorem take_eq (hl : Newest k h l) {n : Nat} (hn : n ≤ k) : l.take n = h.take n := by
  obtain ⟨older, rfl⟩ := hl.front
  have henough := hl.enough
  rw [List.length_append] at henough
  rw [List.take_append]
  -- either the list is long enough, or nothing is older
  rcases Nat.le_total n l.length with hle | hle
  · simp [Nat.sub_eq_zero_of_le hle]
  · have hnone : older.length = 0 ∨ n - l.length = 0 := by omega
    rcases hnone with hnone | hnone
    · simp [List.length_eq_zero_iff.mp hnone]
    · simp [hnone]

end Newest

inductive Move (C α : Type)
  | push (c : C) (x : α)
  | trim (c : C)
  deriving DecidableEq, Repr

def Move.pushed? : Move C α → Option α
  | .push _ x => some x
  | .trim _ => none

/-- The list, everything that was pushed, newest first, and who has pushed and has not
trimmed since. -/
structure Window (C α : Type) where
  kept : List α := []
  pushed : List α := []
  owing : List C := []

namespace Window

variable [DecidableEq C]

def move (k : Nat) (w : Window C α) : Move C α → Window C α
  | .push c x => ⟨x :: w.kept, x :: w.pushed, c :: w.owing⟩
  | .trim c => { w with kept := w.kept.take k, owing := w.owing.filter (· ≠ c) }

/-- The window after the moves, the first of them first. -/
def replay (k : Nat) (ms : List (Move C α)) : Window C α := ms.foldl (move k) {}

theorem replay_concat (ms : List (Move C α)) (m : Move C α) :
    replay k (ms ++ [m]) = (replay k ms).move k m := by
  rw [replay, List.foldl_append]
  rfl

/-- **Whatever the order of the moves**, the list has the newest. -/
theorem newest_replay (ms : List (Move C α)) :
    Newest k (replay k ms).pushed (replay k ms).kept := by
  induction ms using List.reverseRecOn with
  | nil => exact .nil
  | append_singleton ms m ih =>
    rw [replay_concat]
    cases m with
    | push c x => exact ih.push x
    | trim c => exact ih.trim

/-- **How long the list gets**: every element beyond `k` is owed a cut. -/
theorem length_replay_le (ms : List (Move C α)) :
    (replay k ms).kept.length ≤ k + (replay k ms).owing.length := by
  induction ms using List.reverseRecOn with
  | nil => exact Nat.zero_le _
  | append_singleton ms m ih =>
    rw [replay_concat]
    cases m with
    | push c x =>
      show (replay k ms).kept.length + 1 ≤ k + ((replay k ms).owing.length + 1)
      omega
    | trim c =>
      show ((replay k ms).kept.take k).length ≤ _
      rw [List.length_take]
      omega

theorem pushed_replay (ms : List (Move C α)) :
    (replay k ms).pushed = (ms.filterMap Move.pushed?).reverse := by
  induction ms using List.reverseRecOn with
  | nil => rfl
  | append_singleton ms m ih =>
    rw [replay_concat, List.filterMap_append, List.reverse_append, ← ih]
    cases m with
    | push c x => rfl
    | trim c => rfl

theorem mem_pushed_iff {ms : List (Move C α)} {x : α} :
    x ∈ (replay k ms).pushed ↔ ∃ c, .push c x ∈ ms := by
  rw [pushed_replay, List.mem_reverse, List.mem_filterMap]
  constructor
  · rintro ⟨m, hm, hpushed⟩
    cases m with
    | push c y =>
      cases hpushed
      exact ⟨c, hm⟩
    | trim c => cases hpushed
  · rintro ⟨c, hm⟩
    exact ⟨.push c x, hm, rfl⟩

theorem pushes_of_mem_owing {ms : List (Move C α)} {c : C} (h : c ∈ (replay k ms).owing) :
    ∃ x, .push c x ∈ ms := by
  induction ms using List.reverseRecOn with
  | nil => cases h
  | append_singleton ms m ih =>
    rw [replay_concat] at h
    have hearlier : c ∈ (replay k ms).owing → ∃ x, .push c x ∈ ms ++ [m] := by
      intro h
      obtain ⟨x, hx⟩ := ih h
      exact ⟨x, List.mem_append_left _ hx⟩
    cases m with
    | push c' x =>
      rcases List.mem_cons.mp h with rfl | h
      · exact ⟨x, by simp⟩
      · exact hearlier h
    | trim c' => exact hearlier (List.mem_filter.mp h).1

end Window

end Ocpe.Lib
