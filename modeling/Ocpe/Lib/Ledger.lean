import Mathlib.Data.List.NodupEquivFin
import Mathlib.Tactic.Common

/-!
# The ledger of a work queue

What a first-in first-out queue with several takers is for, apart from how it is
kept: the items in the order they were put in, and what has become of each one that
was taken out.  The `i`-th fate belongs to the `i`-th item, so an item that is put
in twice has two lines in the ledger, and every line is in exactly one place: still
waiting, in somebody's hands, done, or lost.

`OneEach` says that nobody has two items at a time.  `holds_take_iff` and
`holds_settle_iff` say who holds what after a step.
-/

namespace Ocpe.Lib

/-- What has become of an item that was taken. -/
inductive Fate (W : Type)
  | held (w : W)
  | done (w : W)
  | lost
  deriving DecidableEq, Repr

/-- The items put in, oldest first, and the fates of those taken out. -/
structure Ledger (J W : Type) where
  pushed : List J
  fates : List (Fate W)
  le : fates.length ≤ pushed.length

/-- What an item in `w`'s hands becomes; every other fate stays. -/
def Fate.settle {W : Type} (become : W → Fate W) : Fate W → Fate W
  | .held w => become w
  | f => f

namespace Ledger

variable {J W : Type} (L : Ledger J W)

def empty : Ledger J W := ⟨[], [], Nat.le_refl _⟩

def waiting : List J := L.pushed.drop L.fates.length

def taken : List J := L.pushed.take L.fates.length

def push (j : J) : Ledger J W :=
  ⟨L.pushed ++ [j], L.fates, by rw [List.length_append]; exact Nat.le_add_right_of_le L.le⟩

def take (f : Fate W) : Ledger J W :=
  if h : L.fates.length < L.pushed.length then
    ⟨L.pushed, L.fates ++ [f], by rw [List.length_append]; exact h⟩
  else L

/-- Items in hands become what `become` says. -/
def settle (become : W → Fate W) : Ledger J W :=
  ⟨L.pushed, L.fates.map (Fate.settle become), by rw [List.length_map]; exact L.le⟩

/-- The `i`-th item is `j`, and it is in `w`'s hands. -/
def HoldsAt (i : Nat) (w : W) (j : J) : Prop :=
  L.fates[i]? = some (.held w) ∧ L.pushed[i]? = some j

def Holds (w : W) (j : J) : Prop := ∃ i, L.HoldsAt i w j

def Done (w : W) (j : J) : Prop :=
  ∃ i : Nat, L.fates[i]? = some (.done w) ∧ L.pushed[i]? = some j

/-- Nobody has two items. -/
def OneEach : Prop :=
  ∀ (i i' : Nat) (w : W),
    L.fates[i]? = some (.held w) → L.fates[i']? = some (.held w) → i = i'

variable {L}

@[simp] theorem push_pushed (j : J) : (L.push j).pushed = L.pushed ++ [j] := rfl

@[simp] theorem push_fates (j : J) : (L.push j).fates = L.fates := rfl

@[simp] theorem settle_pushed (become : W → Fate W) : (L.settle become).pushed = L.pushed := rfl

@[simp] theorem settle_fates (become : W → Fate W) :
    (L.settle become).fates = L.fates.map (Fate.settle become) := rfl

theorem waiting_push (j : J) : (L.push j).waiting = L.waiting ++ [j] :=
  List.drop_append_of_le_length L.le

@[simp] theorem waiting_settle (become : W → Fate W) : (L.settle become).waiting = L.waiting := by
  simp [waiting]

theorem exists_pushed {i : Nat} {f : Fate W} (h : L.fates[i]? = some f) :
    ∃ j, L.pushed[i]? = some j := by
  have hlt := (List.getElem?_eq_some_iff.mp h).1
  exact ⟨_, List.getElem?_eq_getElem (Nat.lt_of_lt_of_le hlt L.le)⟩

section Take

variable {j : J} {js : List J} {f : Fate W}

theorem lt_of_waiting (h : L.waiting = j :: js) : L.fates.length < L.pushed.length := by
  by_contra hge
  rw [waiting, List.drop_eq_nil_of_le (Nat.le_of_not_lt hge)] at h
  cases h

theorem take_of_waiting_nil (h : L.waiting = []) : L.take f = L := by
  rw [take, dif_neg]
  have := congrArg List.length h
  simp only [waiting, List.length_drop, List.length_nil] at this
  omega

@[simp] theorem take_pushed : (L.take f).pushed = L.pushed := by
  unfold take
  split <;> rfl

theorem take_fates (h : L.waiting = j :: js) : (L.take f).fates = L.fates ++ [f] := by
  rw [take, dif_pos (lt_of_waiting h)]

theorem take_fates_iff (h : L.waiting = j :: js) {i : Nat} {g : Fate W} :
    (L.take f).fates[i]? = some g ↔ L.fates[i]? = some g ∨ (i = L.fates.length ∧ g = f) := by
  rw [take_fates h]
  rcases Nat.lt_trichotomy i L.fates.length with hlt | rfl | hgt
  · rw [List.getElem?_append_left hlt]
    simp [Nat.ne_of_lt hlt]
  · simp [eq_comm]
  · have h₁ : L.fates[i]? = none := List.getElem?_eq_none (Nat.le_of_lt hgt)
    have h₂ : (L.fates ++ [f])[i]? = none := by
      rw [List.getElem?_eq_none]
      rw [List.length_append, List.length_singleton]
      exact hgt
    simp [h₁, h₂, Nat.ne_of_gt hgt]

theorem waiting_take (h : L.waiting = j :: js) : (L.take f).waiting = js := by
  rw [waiting, take_pushed, take_fates h, List.length_append, ← List.drop_drop]
  show L.waiting.drop 1 = js
  rw [h]
  rfl

theorem pushed_of_waiting (h : L.waiting = j :: js) : L.pushed[L.fates.length]? = some j := by
  have := @List.getElem?_drop _ L.pushed L.fates.length 0
  rw [← waiting, h] at this
  simpa using this.symm

end Take

/-! ### First in, first out -/

/-- **The items are taken in the order they were put in.** -/
theorem taken_prefix : L.taken <+: L.pushed := List.take_prefix ..

@[simp] theorem taken_push (j : J) : (L.push j).taken = L.taken :=
  List.take_append_of_le_length L.le

@[simp] theorem taken_settle (become : W → Fate W) : (L.settle become).taken = L.taken := by
  simp [taken]

theorem taken_take {j : J} {js : List J} {f : Fate W} (h : L.waiting = j :: js) :
    (L.take f).taken = L.taken ++ [j] := by
  rw [taken, take_pushed, take_fates h, List.length_append, List.length_singleton,
    List.take_add_one, pushed_of_waiting h]
  rfl

/-! ### Who holds what -/

theorem HoldsAt.lt {i : Nat} {w : W} {j : J} (h : L.HoldsAt i w j) : i < L.fates.length :=
  (List.getElem?_eq_some_iff.mp h.1).1

theorem holdsAt_push_iff {i : Nat} {w : W} {j k : J} :
    (L.push k).HoldsAt i w j ↔ L.HoldsAt i w j := by
  constructor
  · rintro ⟨hf, hp⟩
    have hlt := (List.getElem?_eq_some_iff.mp hf).1
    rw [push_pushed, List.getElem?_append_left (Nat.lt_of_lt_of_le hlt L.le)] at hp
    exact ⟨hf, hp⟩
  · intro h
    refine ⟨h.1, ?_⟩
    rw [push_pushed, List.getElem?_append_left (Nat.lt_of_lt_of_le h.lt L.le)]
    exact h.2

@[simp] theorem holds_push_iff {w : W} {j k : J} : (L.push k).Holds w j ↔ L.Holds w j :=
  exists_congr fun _ => holdsAt_push_iff

theorem holds_take_iff {j : J} {js : List J} {f : Fate W} (h : L.waiting = j :: js) {w : W}
    {k : J} : (L.take f).Holds w k ↔ L.Holds w k ∨ (f = .held w ∧ k = j) := by
  unfold Holds HoldsAt
  simp only [take_pushed, take_fates_iff h]
  constructor
  · rintro ⟨i, hf | ⟨rfl, hf⟩, hp⟩
    · exact .inl ⟨i, hf, hp⟩
    · rw [pushed_of_waiting h] at hp
      exact .inr ⟨hf.symm, (Option.some.inj hp).symm⟩
  · rintro (⟨i, hf, hp⟩ | ⟨rfl, rfl⟩)
    · exact ⟨i, .inl hf, hp⟩
    · exact ⟨L.fates.length, .inr ⟨rfl, rfl⟩, pushed_of_waiting h⟩

theorem held_settle_iff {become : W → Fate W} {i : Nat} {w : W}
    (hbecome : ∀ w', become w' = .held w → w' = w) :
    (L.settle become).fates[i]? = some (.held w) ↔ L.fates[i]? = some (.held w) ∧ become w = .held w := by
  rw [settle_fates, List.getElem?_map, Option.map_eq_some_iff]
  constructor
  · rintro ⟨f, hf, hw⟩
    cases f with
    | held w' =>
      obtain rfl := hbecome w' hw
      exact ⟨hf, hw⟩
    | done w' => cases hw
    | lost => cases hw
  · rintro ⟨hf, hw⟩
    exact ⟨_, hf, hw⟩

theorem holds_settle_iff {become : W → Fate W} {w : W} {j : J} (hbecome : ∀ w', become w' = .held w → w' = w) :
    (L.settle become).Holds w j ↔ L.Holds w j ∧ become w = .held w := by
  unfold Holds HoldsAt
  simp only [held_settle_iff hbecome, settle_pushed]
  exact ⟨fun ⟨i, ⟨h1, h2⟩, h3⟩ => ⟨⟨i, h1, h3⟩, h2⟩, fun ⟨⟨i, h1, h3⟩, h2⟩ => ⟨i, ⟨h1, h2⟩, h3⟩⟩

theorem mem_waiting {i : Nat} {j : J} (hi : L.pushed[i]? = some j) (hf : L.fates[i]? = none) :
    j ∈ L.waiting := by
  have hle := List.getElem?_eq_none_iff.mp hf
  refine List.mem_of_getElem? (i := i - L.fates.length) ?_
  rw [waiting, List.getElem?_drop, Nat.add_sub_cancel' hle, hi]

/-! ### An item that is put in once -/

section Once

variable {j : J} [BEq J] [LawfulBEq J] (hone : L.pushed.count j ≤ 1)

include hone

theorem index_unique {i i' : Nat} (hi : L.pushed[i]? = some j) (hi' : L.pushed[i']? = some j) :
    i = i' := by
  have hnot : ¬ List.Duplicate j L.pushed := fun hdup => by
    have hcount := (List.duplicate_iff_sublist.mp hdup).count_le j
    simp only [List.count_cons_self, List.count_nil] at hcount
    omega
  obtain ⟨hlt, hj⟩ := List.getElem?_eq_some_iff.mp hi
  obtain ⟨hlt', hj'⟩ := List.getElem?_eq_some_iff.mp hi'
  by_contra hne
  rcases Nat.lt_or_gt_of_ne hne with h | h
  · exact hnot (List.duplicate_iff_exists_distinct_get.mpr
      ⟨⟨i, hlt⟩, ⟨i', hlt'⟩, h, hj.symm, hj'.symm⟩)
  · exact hnot (List.duplicate_iff_exists_distinct_get.mpr
      ⟨⟨i', hlt'⟩, ⟨i, hlt⟩, h, hj'.symm, hj.symm⟩)

omit [LawfulBEq J] in
theorem count_waiting_le : L.waiting.count j ≤ 1 :=
  Nat.le_trans ((List.drop_sublist ..).count_le j) hone

theorem holder_unique {w w' : W} (h : L.Holds w j) (h' : L.Holds w' j) : w = w' := by
  obtain ⟨i, hf, hp⟩ := h
  obtain ⟨i', hf', hp'⟩ := h'
  obtain rfl := index_unique hone hp hp'
  rw [hf] at hf'
  cases hf'
  rfl

theorem not_holds_of_waiting {w : W} (h : j ∈ L.waiting) : ¬ L.Holds w j := by
  rintro ⟨i, hf, hp⟩
  obtain ⟨k, hk⟩ := List.getElem?_of_mem h
  rw [waiting, List.getElem?_drop] at hk
  obtain rfl := index_unique hone hp hk
  have hlt := (List.getElem?_eq_some_iff.mp hf).1
  omega

theorem fate_of_once {i : Nat} (hi : L.pushed[i]? = some j) :
    (∀ w, L.Holds w j ↔ L.fates[i]? = some (.held w)) ∧
      (∀ w, L.Done w j ↔ L.fates[i]? = some (.done w)) ∧
      (j ∈ L.waiting ↔ L.fates[i]? = none) := by
  refine ⟨fun w => ⟨?_, fun h => ⟨i, h, hi⟩⟩, fun w => ⟨?_, fun h => ⟨i, h, hi⟩⟩, ?_, fun h => ?_⟩
  · rintro ⟨i', hf, hp⟩
    rwa [index_unique hone hi hp]
  · rintro ⟨i', hf, hp⟩
    rwa [index_unique hone hi hp]
  · intro hmem
    obtain ⟨k, hk⟩ := List.getElem?_of_mem hmem
    rw [waiting, List.getElem?_drop] at hk
    rw [index_unique hone hi hk, List.getElem?_eq_none_iff]
    exact Nat.le_add_right ..
  · exact mem_waiting hi h

end Once

/-- **An item that is put in once and not lost is in one place**: it waits, or one taker
has it, or one taker is through with it. -/
theorem place_of_once {j : J} [BEq J] [LawfulBEq J] (hone : L.pushed.count j = 1)
    (hkept : ∀ i : Nat, L.pushed[i]? = some j → L.fates[i]? ≠ some .lost) :
    (L.waiting.count j = 1 ∧ (∀ w, ¬ L.Holds w j) ∧ ∀ w, ¬ L.Done w j) ∨
    (j ∉ L.waiting ∧ (∃! w, L.Holds w j) ∧ ∀ w, ¬ L.Done w j) ∨
    (j ∉ L.waiting ∧ (∀ w, ¬ L.Holds w j) ∧ ∃! w, L.Done w j) := by
  have hmem : j ∈ L.pushed := List.count_pos_iff.mp (by omega)
  obtain ⟨i, hi⟩ := List.getElem?_of_mem hmem
  obtain ⟨hholds, hdone, hwaiting⟩ := fate_of_once hone.le hi
  simp only [hholds, hdone, hwaiting]
  cases hf : L.fates[i]? with
  | none =>
    left
    have hpos : 0 < L.waiting.count j := List.count_pos_iff.mpr (hwaiting.mpr hf)
    have hle := count_waiting_le hone.le
    exact ⟨by omega, by simp, by simp⟩
  | some f =>
    right
    cases f with
    | held w => exact .inl ⟨by simp, ⟨w, rfl, by simp⟩, by simp⟩
    | done w => exact .inr ⟨by simp, by simp, ⟨w, rfl, by simp⟩⟩
    | lost => exact absurd hf (hkept i hi)

/-! ### Nobody has two items -/

theorem oneEach_empty : (empty : Ledger J W).OneEach := by
  intro i i' w h
  simp [empty] at h

theorem OneEach.push (h : L.OneEach) (j : J) : (L.push j).OneEach := h

theorem OneEach.settle (h : L.OneEach) {become : W → Fate W}
    (hbecome : ∀ w w', become w' = .held w → w' = w) : (L.settle become).OneEach := by
  intro i i' w hi hi'
  exact h i i' w ((held_settle_iff (hbecome w)).mp hi).1 ((held_settle_iff (hbecome w)).mp hi').1

theorem OneEach.take {j : J} {js : List J} {f : Fate W} (h : L.OneEach) (hw : L.waiting = j :: js)
    (hfree : ∀ w, f = .held w → ∀ j', ¬ L.Holds w j') : (L.take f).OneEach := by
  have hold : ∀ (i : Nat) (w : W), L.fates[i]? = some (.held w) → ∃ j', L.Holds w j' := by
    intro i w hi
    obtain ⟨j', hj'⟩ := exists_pushed hi
    exact ⟨j', i, hi, hj'⟩
  intro i i' w hi hi'
  rcases (take_fates_iff hw).mp hi with h₁ | ⟨rfl, hf⟩
  · rcases (take_fates_iff hw).mp hi' with h₂ | ⟨rfl, hf⟩
    · exact h i i' w h₁ h₂
    · obtain ⟨j', hj'⟩ := hold i w h₁
      exact absurd hj' (hfree w hf.symm j')
  · rcases (take_fates_iff hw).mp hi' with h₂ | ⟨rfl, -⟩
    · obtain ⟨j', hj'⟩ := hold i' w h₂
      exact absurd hj' (hfree w hf.symm j')
    · rfl

end Ledger

end Ocpe.Lib
