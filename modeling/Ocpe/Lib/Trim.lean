import Mathlib.Data.List.DropRight

/-!
# Trimming a list

What is left of a list without the elements of a kind at its two ends.

* `Pads p t s`: `s` is `t` with such elements put before and after it.
* `Bare p t`: `t` neither begins nor ends with one.
* `trim_eq_iff`: `trim p s` is the one list with both.
* `trim_eq_trim_iff`: two lists have the same trimming exactly when they pad the same list.
-/

namespace Ocpe.Lib

variable {α : Type}

/-- `s` is `t` between two lists of elements with `p`. -/
def Pads (p : α → Bool) (t s : List α) : Prop :=
  ∃ l r, s = l ++ t ++ r ∧ (∀ a ∈ l, p a = true) ∧ ∀ a ∈ r, p a = true

/-- No element with `p` is first or last. -/
def Bare (p : α → Bool) (t : List α) : Prop :=
  (∀ a ∈ t.head?, p a = false) ∧ ∀ a ∈ t.getLast?, p a = false

def trim (p : α → Bool) (s : List α) : List α := (s.dropWhile p).rdropWhile p

variable {p : α → Bool} {s t u : List α}

theorem Pads.refl (s : List α) : Pads p s s := ⟨[], [], by simp, by simp, by simp⟩

theorem Pads.trans (h : Pads p t s) (h' : Pads p s u) : Pads p t u := by
  obtain ⟨l, r, rfl, hl, hr⟩ := h
  obtain ⟨l', r', rfl, hl', hr'⟩ := h'
  refine ⟨l' ++ l, r ++ r', by simp, fun a ha => ?_, fun a ha => ?_⟩
  · rcases List.mem_append.mp ha with ha | ha
    · exact hl' a ha
    · exact hl a ha
  · rcases List.mem_append.mp ha with ha | ha
    · exact hr a ha
    · exact hr' a ha

theorem dropWhile_eq_self_of_head? (h : ∀ a ∈ s.head?, p a = false) : s.dropWhile p = s := by
  cases s with
  | nil => rfl
  | cons a s =>
    have ha : ¬ p a = true := by simpa using h a rfl
    rw [List.dropWhile_cons_of_neg ha]

theorem rdropWhile_eq_self_of_getLast? (h : ∀ a ∈ s.getLast?, p a = false) :
    s.rdropWhile p = s := by
  rw [List.rdropWhile, dropWhile_eq_self_of_head? (by rwa [List.head?_reverse]),
    List.reverse_reverse]

theorem rdropWhile_append_of_pos {r : List α} (hr : ∀ a ∈ r, p a = true) :
    (s ++ r).rdropWhile p = s.rdropWhile p := by
  rw [List.rdropWhile, List.reverse_append, List.dropWhile_append_of_pos (by simpa using hr)]
  rfl

/-- **A bare list is what trimming leaves of every list that pads it.** -/
theorem trim_of_pads (h : Pads p t s) (ht : Bare p t) : trim p s = t := by
  obtain ⟨l, r, rfl, hl, hr⟩ := h
  rw [trim, List.append_assoc, List.dropWhile_append_of_pos hl]
  cases t with
  | nil =>
    rw [List.nil_append, List.dropWhile_eq_nil_iff.mpr hr]
    exact List.rdropWhile_nil p
  | cons a t =>
    have hhead : ∀ b ∈ (a :: t ++ r).head?, p b = false := ht.1
    rw [dropWhile_eq_self_of_head? hhead, rdropWhile_append_of_pos hr]
    exact rdropWhile_eq_self_of_getLast? ht.2

theorem pads_trim (p : α → Bool) (s : List α) : Pads p (trim p s) s := by
  refine ⟨s.takeWhile p, (s.dropWhile p).rtakeWhile p, ?_, fun a => List.mem_takeWhile_imp,
    fun a => List.mem_rtakeWhile_imp⟩
  rw [trim, List.append_assoc, List.rdropWhile_append_rtakeWhile, List.takeWhile_append_dropWhile]

theorem bare_trim (p : α → Bool) (s : List α) : Bare p (trim p s) := by
  constructor
  · -- what is left begins as before the second step
    intro a ha
    obtain ⟨r, hr⟩ : trim p s <+: s.dropWhile p := List.rdropWhile_prefix p _
    have hfirst : (s.dropWhile p).head? = some a := by
      rw [← hr, List.head?_append, show (trim p s).head? = some a from ha]
      rfl
    have hnot := List.head?_dropWhile_not p s
    rw [hfirst] at hnot
    exact hnot
  · intro a ha
    have hne : trim p s ≠ [] := by
      intro hnil
      rw [hnil] at ha
      cases ha
    rw [List.getLast?_eq_some_getLast hne] at ha
    cases ha
    have hlast := List.rdropWhile_last_not p (s.dropWhile p) hne
    rw [Bool.not_eq_true] at hlast
    exact hlast

/-- **What trimming leaves**: the one bare list that the list pads. -/
theorem trim_eq_iff : trim p s = t ↔ Pads p t s ∧ Bare p t := by
  constructor
  · rintro rfl
    exact ⟨pads_trim p s, bare_trim p s⟩
  · intro ⟨hpads, hbare⟩
    exact trim_of_pads hpads hbare

theorem Pads.trim_eq (h : Pads p t s) : trim p s = trim p t :=
  trim_of_pads ((pads_trim p t).trans h) (bare_trim p t)

theorem trim_eq_trim_iff : trim p s = trim p t ↔ ∃ u, Pads p u s ∧ Pads p u t := by
  constructor
  · intro h
    exact ⟨trim p s, pads_trim p s, h ▸ pads_trim p t⟩
  · intro ⟨u, hs, ht⟩
    exact hs.trim_eq.trans ht.trim_eq.symm

end Ocpe.Lib
