import Mathlib.Data.List.Basic
import Mathlib.Logic.Function.Basic

/-!
# Descriptor tables

The open descriptors of a process: finitely many numbers, each with what it refers to and
the mark by which `exec` closes it.  Everything here says what is under which number
afterwards.

* `lowestFree`: what the next descriptor is; `lowestFree_eq_iff` characterises it.
* `opens`, `close`, `dup2`, `exec`: the system calls, on the table alone.
* `get_exec_eq_some`: `exec` keeps what is not marked.
-/

namespace Ocpe.Lib

variable {α : Type}

structure Desc (α : Type) where
  file : α
  cloexec : Bool := false
  deriving DecidableEq, Repr

/-- **The descriptor table of a process.** -/
structure FdTable (α : Type) where
  get : Nat → Option (Desc α)
  bound : Nat
  free : ∀ n, bound ≤ n → get n = none

namespace FdTable

def lowestFree (t : FdTable α) : Nat :=
  ((List.range t.bound).find? fun n => (t.get n).isNone).getD t.bound

def set (t : FdTable α) (n : Nat) (v : Option (Desc α)) : FdTable α where
  get := Function.update t.get n v
  bound := max t.bound (n + 1)
  free m hm := by
    rw [Function.update_of_ne (by omega)]
    exact t.free m (by omega)

/-- A new descriptor for the file, under the lowest free number. -/
def opens (t : FdTable α) (file : α) (cloexec : Bool) : FdTable α :=
  t.set t.lowestFree (some ⟨file, cloexec⟩)

def close (t : FdTable α) (n : Nat) : FdTable α := t.set n none

/-- `dup2(m, n)`: it does nothing when `m` is `n` or is not open, and the copy is not
marked. -/
def dup2 (t : FdTable α) (m n : Nat) : FdTable α :=
  match t.get m with
  | none => t
  | some d => if m = n then t else t.set n (some { d with cloexec := false })

/-- The table that the program starts with: what is marked is closed. -/
def exec (t : FdTable α) : FdTable α where
  get n := (t.get n).filter fun d => !d.cloexec
  bound := t.bound
  free n hn := by rw [t.free n hn]; rfl

def map {β : Type} (f : α → β) (t : FdTable α) : FdTable β where
  get n := (t.get n).map fun d => ⟨f d.file, d.cloexec⟩
  bound := t.bound
  free n hn := by rw [t.free n hn]; rfl

variable {t u : FdTable α}

@[simp] theorem get_set (t : FdTable α) (n : Nat) (v : Option (Desc α)) (m : Nat) :
    (t.set n v).get m = if m = n then v else t.get m := by
  simp [set, Function.update_apply]

theorem get_close (n m : Nat) : (t.close n).get m = if m = n then none else t.get m :=
  get_set t n none m

theorem get_dup2 {m n : Nat} {d : Desc α} (hm : t.get m = some d) (k : Nat) :
    (t.dup2 m n).get k =
      if m = n then t.get k else if k = n then some { d with cloexec := false } else t.get k := by
  unfold dup2
  rw [hm]
  dsimp only
  split
  · rfl
  · exact get_set ..

theorem get_exec_eq_some {n : Nat} {d : Desc α} :
    t.exec.get n = some d ↔ t.get n = some d ∧ d.cloexec = false := by
  show (t.get n).filter _ = some d ↔ _
  rw [Option.filter_eq_some_iff]
  simp

theorem get_exec_eq_none {n : Nat} :
    t.exec.get n = none ↔ ∀ d, t.get n = some d → d.cloexec = true := by
  show (t.get n).filter _ = none ↔ _
  rw [Option.filter_eq_none_iff]
  simp

theorem get_lowestFree (t : FdTable α) : t.get t.lowestFree = none := by
  unfold lowestFree
  cases h : (List.range t.bound).find? fun n => (t.get n).isNone with
  | none => exact t.free _ (Nat.le_refl _)
  | some n => simpa using List.find?_some h

theorem isSome_of_lt_lowestFree {n : Nat} (hn : n < t.lowestFree) : (t.get n).isSome = true := by
  unfold lowestFree at hn
  cases h : (List.range t.bound).find? fun n => (t.get n).isNone with
  | none =>
    rw [h] at hn
    have hused := List.find?_eq_none.mp h n (List.mem_range.mpr hn)
    simpa [Option.isSome_iff_ne_none] using hused
  | some m =>
    rw [h] at hn
    have hused := (List.find?_range_eq_some.mp h).2.2 n hn
    simpa [Option.isSome_iff_ne_none] using hused

theorem lowestFree_eq_iff {n : Nat} :
    t.lowestFree = n ↔ t.get n = none ∧ ∀ m < n, (t.get m).isSome = true := by
  constructor
  · rintro rfl
    exact ⟨get_lowestFree t, fun m => isSome_of_lt_lowestFree⟩
  · rintro ⟨hfree, hused⟩
    rcases Nat.lt_trichotomy t.lowestFree n with hlt | heq | hgt
    · have h := hused _ hlt
      rw [get_lowestFree] at h
      cases h
    · exact heq
    · have h := isSome_of_lt_lowestFree hgt
      rw [hfree] at h
      cases h

theorem lowestFree_eq_zero_iff : t.lowestFree = 0 ↔ t.get 0 = none := by
  rw [lowestFree_eq_iff]
  exact ⟨fun h => h.1, fun h => ⟨h, fun m hm => absurd hm (Nat.not_lt_zero m)⟩⟩

theorem lowestFree_congr (h : ∀ n, t.get n = u.get n) : t.lowestFree = u.lowestFree := by
  rw [lowestFree_eq_iff]
  exact ⟨by rw [h, get_lowestFree], fun m hm => by rw [h]; exact isSome_of_lt_lowestFree hm⟩

/-- **A descriptor that is closed again** leaves nothing behind. -/
theorem get_opens_close (t : FdTable α) (file : α) (cloexec : Bool) (n : Nat) :
    ((t.opens file cloexec).close t.lowestFree).get n = t.get n := by
  rw [get_close, opens, get_set]
  by_cases hn : n = t.lowestFree
  · rw [if_pos hn, hn, get_lowestFree]
  · rw [if_neg hn, if_neg hn]

/-- **A file that is opened for 0** is there afterwards, unless 0 was free before. -/
theorem get_opens_dup2_close (t : FdTable α) (file : α) (n : Nat) :
    (((t.opens file false).dup2 t.lowestFree 0).close t.lowestFree).get n =
      if t.lowestFree ≠ 0 ∧ n = 0 then some ⟨file, false⟩ else t.get n := by
  have hfd : (t.opens file false).get t.lowestFree = some ⟨file, false⟩ := by
    rw [opens, get_set, if_pos rfl]
  rw [get_close, get_dup2 hfd, opens, get_set]
  by_cases hn : n = t.lowestFree
  · rw [if_pos hn, if_neg (fun h => h.1 (hn.symm.trans h.2)), hn, get_lowestFree]
  · rw [if_neg hn, if_neg hn]
    by_cases hzero : t.lowestFree = 0
    · rw [if_pos hzero, if_neg (fun h => h.1 hzero)]
    · rw [if_neg hzero]
      simp only [ne_eq, hzero, not_false_eq_true, true_and]

end FdTable

end Ocpe.Lib
